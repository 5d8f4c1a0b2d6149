import LiveTemplate.Document.Markup
import LiveTemplate.Markup.Entity
import LiveTemplate.Proofs.Encoding

/-!
# LiveTemplate.Proofs.Entities

Entities are decoded once. Replacing them one kind after the other comes to a single pass from the
left that never looks at what it wrote, so decoding undoes escaping.

  * `decodeFrom`              the single pass
  * `decodeEntities_eq`       it is what decoding does
  * `decodeEntities_escape`   escaped text is decoded to itself
  * `OnePass`                 the pass as a relation, without a table and its order
  * `decodeEntities_once`     the main result
-/

namespace LiveTemplate
namespace Markup

/-- The first of the entities that stands in front of a text. -/
def entityInFront? (es : List (String × Char)) (cs : List Char) : Option (String × Char) :=
  es.find? fun e => e.1.toList.isPrefixOf cs

/-- Replaces entities in one pass from the left, after leaving out `skip` characters. -/
def decodeFrom (es : List (String × Char)) : Nat → List Char → List Char
  | _, [] => []
  | skip + 1, _ :: rest => decodeFrom es skip rest
  | 0, c :: rest =>
    match entityInFront? es (c :: rest) with
    | some e => e.2 :: decodeFrom es (e.1.toList.length - 1) rest
    | none => c :: decodeFrom es 0 rest

/-- An ampersand in front and nowhere else. -/
def IsEntity (e : String × Char) : Prop := ∃ name, e.1.toList = '&' :: name ∧ '&' ∉ name

theorem IsEntity.length_lt {e : String × Char} (h : IsEntity e) {cs rest : List Char}
    (front : cs = e.1.toList ++ rest) : rest.length < cs.length := by
  obtain ⟨name, same, _⟩ := h
  rw [front, same, List.length_append, List.length_cons]
  omega

theorem isEntity_entities : ∀ e ∈ entities, IsEntity e := by
  have shape : ∀ e ∈ entities, e.1.toList.head? = some '&' ∧ '&' ∉ e.1.toList.tail := by
    decide
  intro e mem
  obtain ⟨head, tail⟩ := shape e mem
  obtain ⟨name, same⟩ := List.head?_eq_some_iff.mp head
  rw [same] at tail
  exact ⟨name, same, tail⟩

/-- What stands for an entity is no part of a later one. -/
theorem pairwise_entities : entities.Pairwise fun e later => e.2 ∉ later.1.toList := by
  decide

variable {es : List (String × Char)}

theorem decodeFrom_append_skip (skipped rest : List Char) :
    decodeFrom es skipped.length (skipped ++ rest) = decodeFrom es 0 rest := by
  induction skipped with
  | nil => rfl
  | cons c skipped ih => exact ih

/-- An entity in front is replaced, and the pass goes on behind it. -/
theorem decodeFrom_of_front (shape : ∀ e ∈ es, IsEntity e) {e : String × Char}
    {cs rest : List Char} (found : entityInFront? es cs = some e)
    (front : cs = e.1.toList ++ rest) :
    decodeFrom es 0 cs = e.2 :: decodeFrom es 0 rest := by
  obtain ⟨name, same, _⟩ := shape e (List.mem_of_find?_eq_some found)
  rw [front, same, List.cons_append] at found ⊢
  rw [decodeFrom, found]
  dsimp only
  rw [same, List.length_cons, Nat.add_sub_cancel, decodeFrom_append_skip]

theorem entityInFront?_eq_some {e : String × Char} {cs : List Char}
    (found : entityInFront? es cs = some e) : e ∈ es ∧ ∃ rest, cs = e.1.toList ++ rest := by
  have front : e.1.toList.isPrefixOf cs = true :=
    List.find?_some (p := fun e : String × Char => e.1.toList.isPrefixOf cs) found
  obtain ⟨rest, same⟩ := List.isPrefixOf_iff_prefix.mp front
  exact ⟨List.mem_of_find?_eq_some found, rest, same.symm⟩

theorem entityInFront?_eq_none (shape : ∀ e ∈ es, IsEntity e) {c : Char} (other : c ≠ '&')
    (rest : List Char) : entityInFront? es (c :: rest) = none := by
  refine List.find?_eq_none.mpr fun e mem => ?_
  obtain ⟨name, same, _⟩ := shape e mem
  rw [same, List.isPrefixOf, beq_false_of_ne (Ne.symm other), Bool.false_and]
  exact Bool.false_ne_true

theorem decodeFrom_cons (shape : ∀ e ∈ es, IsEntity e) {c : Char} (other : c ≠ '&')
    (rest : List Char) : decodeFrom es 0 (c :: rest) = c :: decodeFrom es 0 rest := by
  rw [decodeFrom, entityInFront?_eq_none shape other]

theorem decodeFrom_append (shape : ∀ e ∈ es, IsEntity e) {cs : List Char} (free : '&' ∉ cs)
    (rest : List Char) : decodeFrom es 0 (cs ++ rest) = cs ++ decodeFrom es 0 rest := by
  induction cs with
  | nil => rfl
  | cons c cs ih =>
    obtain ⟨other, free⟩ := not_or.mp (mt List.mem_cons.mpr free)
    rw [List.cons_append, decodeFrom_cons shape (Ne.symm other), ih free, List.cons_append]

/-- A name that is in front of what a pass wrote was there before. -/
theorem prefix_of_decodeFrom {name rest : List Char} (free : ∀ e ∈ es, e.2 ∉ name)
    (h : name <+: decodeFrom es 0 rest) : name <+: rest := by
  induction name generalizing rest with
  | nil => exact List.nil_prefix
  | cons n name ih =>
    cases rest with
    | nil => cases List.prefix_nil.mp h
    | cons c rest =>
      rw [decodeFrom] at h
      split at h
      case h_1 e found =>
        have same : n = e.2 := (List.cons_prefix_cons.mp h).1
        exact absurd (same ▸ List.mem_cons_self) (free e (List.mem_of_find?_eq_some found))
      case h_2 =>
        obtain ⟨rfl, tail⟩ := List.cons_prefix_cons.mp h
        exact List.cons_prefix_cons.mpr
          ⟨rfl, ih (fun e mem held => free e mem (List.mem_cons_of_mem _ held)) tail⟩

theorem replaceFrom_append_skip (mark new skipped rest : List Char) :
    Text.replaceFrom mark new skipped.length (skipped ++ rest) =
      Text.replaceFrom mark new 0 rest := by
  induction skipped with
  | nil => rfl
  | cons c skipped ih => exact ih

theorem replaceFrom_cons {m c : Char} (other : c ≠ m) (mark new rest : List Char) :
    Text.replaceFrom (m :: mark) new 0 (c :: rest) =
      c :: Text.replaceFrom (m :: mark) new 0 rest := by
  rw [Text.replaceFrom, List.isPrefixOf, beq_false_of_ne (Ne.symm other), Bool.false_and,
    if_neg Bool.false_ne_true]

theorem entityInFront?_snoc (es : List (String × Char)) (e : String × Char) (cs : List Char) :
    entityInFront? (es ++ [e]) cs =
      (entityInFront? es cs).or (if e.1.toList.isPrefixOf cs then some e else none) := by
  rw [entityInFront?, List.find?_append, List.find?_singleton]
  rfl

/-- Replacing one more entity in what a pass wrote is a pass for all of them. -/
theorem replaceAll_decodeFrom {e : String × Char} (shape : ∀ x ∈ es ++ [e], IsEntity x)
    (free : ∀ earlier ∈ es, earlier.2 ∉ e.1.toList) (cs : List Char) :
    Text.replaceAll e.1.toList [e.2] (decodeFrom es 0 cs) = decodeFrom (es ++ [e]) 0 cs := by
  have shape' : ∀ x ∈ es, IsEntity x := fun x mem => shape x (List.mem_append_left _ mem)
  obtain ⟨name, same, lone⟩ := shape e (by simp)
  unfold Text.replaceAll
  induction h : cs.length using Nat.strong_induction_on generalizing cs with
  | _ n ih =>
  cases cs with
  | nil => rfl
  | cons c rest =>
    have next {later : List Char} (shorter : later.length < (c :: rest).length) :=
      ih later.length (h ▸ shorter) later rfl
    have last := entityInFront?_snoc es e (c :: rest)
    cases found : entityInFront? es (c :: rest) with
    | some x =>
      -- An earlier entity is in front: its character is no ampersand and stays.
      obtain ⟨mem, later, front⟩ := entityInFront?_eq_some found
      rw [found, Option.some_or] at last
      have other : x.2 ≠ '&' := by
        intro amp
        refine free x mem ?_
        rw [amp, same]
        exact List.mem_cons_self
      have shorter := (shape' x mem).length_lt front
      rw [decodeFrom_of_front shape' found front, decodeFrom_of_front shape last front, same,
        replaceFrom_cons other, ← same, next shorter]
    | none =>
      rw [found, Option.none_or] at last
      by_cases front : e.1.toList <+: c :: rest
      · -- The new entity is in front, and the pass before left it as it was.
        obtain ⟨later, front⟩ := front
        rw [if_pos (by simp [← front])] at last
        have shorter := (shape e (by simp)).length_lt front.symm
        rw [decodeFrom_of_front shape last front.symm]
        rw [same, List.cons_append] at front
        obtain ⟨rfl, rfl⟩ := List.cons.inj front
        rw [decodeFrom, found, same]
        dsimp only
        rw [decodeFrom_append shape' lone, Text.replaceFrom, if_pos (by simp), List.length_cons,
          Nat.add_sub_cancel, replaceFrom_append_skip, ← same, next shorter,
          List.singleton_append]
      · -- Nothing is in front, and the pass before brings the new entity to no other place.
        rw [if_neg (by simpa using front)] at last
        have absent : ¬ e.1.toList <+: decodeFrom es 0 (c :: rest) :=
          fun h => front (prefix_of_decodeFrom free h)
        rw [decodeFrom, found] at absent ⊢
        rw [decodeFrom, last]
        dsimp only at absent ⊢
        rw [Text.replaceFrom, if_neg (by simpa using absent), next (Nat.lt_succ_self _)]

theorem decodeFrom_nil (cs : List Char) : decodeFrom [] 0 cs = cs := by
  induction cs with
  | nil => rfl
  | cons c cs ih => exact congrArg (c :: ·) ih

/-- The replacements, one after the other, are a single pass. -/
theorem foldl_replaceAll (es later : List (String × Char)) (shape : ∀ e ∈ es ++ later, IsEntity e)
    (apart : (es ++ later).Pairwise fun e after => e.2 ∉ after.1.toList) (cs : List Char) :
    later.foldl (fun cs e => Text.replaceAll e.1.toList [e.2] cs) (decodeFrom es 0 cs) =
      decodeFrom (es ++ later) 0 cs := by
  induction later generalizing es with
  | nil => rw [List.append_nil]; rfl
  | cons e later ih =>
    have free : ∀ x ∈ es, x.2 ∉ e.1.toList := fun x mem =>
      (List.pairwise_append.mp apart).2.2 x mem e List.mem_cons_self
    rw [List.append_cons] at shape apart ⊢
    have step := replaceAll_decodeFrom (fun x mem => shape x (List.mem_append_left _ mem)) free cs
    rw [List.foldl_cons, step, ih _ shape apart]

theorem decodeEntities_eq (cs : List Char) : decodeEntities cs = decodeFrom entities 0 cs := by
  have fold := foldl_replaceAll [] entities isEntity_entities pairwise_entities cs
  rwa [decodeFrom_nil] at fold

/-! ## Escaping -/

/-- The characters of an escaped text. -/
theorem toList_escapeWith (escape : Char → String) (s : String) :
    (Document.escapeWith escape s).toList = s.toList.flatMap fun c => (escape c).toList := by
  rw [Document.escapeWith, String.toList_join, List.flatMap_map]

/-- Each character is decoded from what it is escaped to. -/
def Undoes (escape : Char → String) : Prop :=
  ∀ c rest, decodeFrom entities 0 ((escape c).toList ++ rest) = c :: decodeFrom entities 0 rest

theorem undoes_escapeText : Undoes Document.escapeText := by
  intro c rest
  unfold Document.escapeText
  split_ifs with amp less greater
  · subst amp; rfl
  · subst less; rfl
  · subst greater; rfl
  · rw [String.toList_singleton, List.singleton_append, decodeFrom_cons isEntity_entities amp]

theorem undoes_escapeValue : Undoes Document.escapeValue := by
  intro c rest
  unfold Document.escapeValue
  split_ifs with quote
  · subst quote; rfl
  · exact undoes_escapeText c rest

theorem decodeEntities_escape {escape : Char → String} (undoes : Undoes escape) (s : String) :
    decodeEntities (Document.escapeWith escape s).toList = s.toList := by
  rw [decodeEntities_eq, toList_escapeWith]
  induction s.toList with
  | nil => rfl
  | cons c cs ih => rw [List.flatMap_cons, undoes, ih]

/-! ## The pass as a relation -/

/-- A spelling and the character that it stands for. -/
inductive Named : List Char → Char → Prop
  | less : Named "&lt;".toList '<'
  | greater : Named "&gt;".toList '>'
  | quote : Named "&quot;".toList '"'
  | apostrophe : Named "&#39;".toList '\''
  | space : Named "&nbsp;".toList '\u00a0'
  | ampersand : Named "&amp;".toList '&'

/-- A pass over a text, from the left. What was written for an entity is not part of what is still
to be passed. -/
inductive OnePass : List Char → List Char → Prop
  | done : OnePass [] []
  | entity {name rest out : List Char} {c : Char} (named : Named name c) (more : OnePass rest out) :
      OnePass (name ++ rest) (c :: out)
  | char {c : Char} {rest out : List Char} (plain : ∀ name d, Named name d → ¬name <+: c :: rest)
      (more : OnePass rest out) : OnePass (c :: rest) (c :: out)

theorem named_iff {name : List Char} {c : Char} :
    Named name c ↔ ∃ e ∈ entities, e.1.toList = name ∧ e.2 = c := by
  constructor
  · rintro (_ | _) <;> simp [entities]
  · rintro ⟨e, mem, rfl, rfl⟩
    simp only [entities, List.mem_cons, List.not_mem_nil, or_false] at mem
    rcases mem with rfl | rfl | rfl | rfl | rfl | rfl
    · exact .less
    · exact .greater
    · exact .quote
    · exact .apostrophe
    · exact .space
    · exact .ampersand

/-- At most one entity stands in front of a text. -/
theorem eq_of_prefix_of_prefix {e e' : String × Char} (mem : e ∈ entities) (mem' : e' ∈ entities)
    {cs : List Char} (front : e.1.toList <+: cs) (front' : e'.1.toList <+: cs) : e = e' := by
  have apart : ∀ e ∈ entities, ∀ e' ∈ entities, e.1.toList <+: e'.1.toList → e = e' := by decide
  rcases List.prefix_or_prefix_of_prefix front front' with within | within
  · exact apart e mem e' mem' within
  · exact (apart e' mem' e mem within).symm

theorem onePass_decodeFrom (cs : List Char) : OnePass cs (decodeFrom entities 0 cs) := by
  induction size : cs.length using Nat.strong_induction_on generalizing cs with
  | _ n ih =>
  cases cs with
  | nil => exact .done
  | cons c rest =>
    cases found : entityInFront? entities (c :: rest) with
    | some e =>
      obtain ⟨mem, later, front⟩ := entityInFront?_eq_some found
      have shorter := (isEntity_entities e mem).length_lt front
      rw [decodeFrom_of_front isEntity_entities found front, front]
      exact .entity (named_iff.mpr ⟨e, mem, rfl, rfl⟩) (ih _ (size ▸ shorter) later rfl)
    | none =>
      rw [decodeFrom, found]
      refine .char (fun name d named front => ?_) (ih _ (size ▸ Nat.lt_succ_self _) rest rfl)
      obtain ⟨e, mem, rfl, -⟩ := named_iff.mp named
      exact List.find?_eq_none.mp found e mem (List.isPrefixOf_iff_prefix.mpr front)

/-- There is one way to pass a text. -/
theorem OnePass.decodeFrom_eq {cs out : List Char} (h : OnePass cs out) :
    decodeFrom entities 0 cs = out := by
  induction h with
  | done => rfl
  | @entity name rest out c named more ih =>
    obtain ⟨e, mem, rfl, rfl⟩ := named_iff.mp named
    have front : e.1.toList <+: e.1.toList ++ rest := List.prefix_append _ _
    cases found : entityInFront? entities (e.1.toList ++ rest) with
    | none =>
      exact absurd (List.isPrefixOf_iff_prefix.mpr front) (List.find?_eq_none.mp found e mem)
    | some first =>
      obtain ⟨mem', later, same⟩ := entityInFront?_eq_some found
      obtain rfl := eq_of_prefix_of_prefix mem' mem ⟨later, same.symm⟩ front
      rw [decodeFrom_of_front isEntity_entities found rfl, ih]
  | @char c rest out plain more ih =>
    cases found : entityInFront? entities (c :: rest) with
    | none => rw [decodeFrom, found, ih]
    | some first =>
      obtain ⟨mem, later, same⟩ := entityInFront?_eq_some found
      exact absurd ⟨later, same.symm⟩ (plain _ _ (named_iff.mpr ⟨first, mem, rfl, rfl⟩))

/-- Replacing the entities one kind after the other is a single pass from the left that does not
look at its own output. So it undoes what escaping does, in texts and in values. -/
theorem decodeEntities_once (s : String) :
    (∀ out, decodeEntities s.toList = out ↔ OnePass s.toList out) ∧
    decodeEntities (Document.escapeWith Document.escapeText s).toList = s.toList ∧
    decodeEntities (Document.escapeWith Document.escapeValue s).toList = s.toList := by
  refine ⟨fun out => ⟨?_, fun pass => ?_⟩, decodeEntities_escape undoes_escapeText s,
    decodeEntities_escape undoes_escapeValue s⟩
  · rintro rfl
    rw [decodeEntities_eq]
    exact onePass_decodeFrom s.toList
  · rw [decodeEntities_eq, pass.decodeFrom_eq]

example : decodeEntities "&&lt;amp;lt;&amp;gt;".toList = "&<amp;lt;&gt;".toList := by decide

end Markup
end LiveTemplate
