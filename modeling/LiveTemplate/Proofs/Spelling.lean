import LiveTemplate.Proofs.Inventory
import LiveTemplate.Proofs.RoundTrip

/-!
# LiveTemplate.Proofs.Spelling

What the reader of markup can give. Tags and the names of attributes are words, a void element has
nothing below it, and a comment does not hold its own end. Nothing is said of texts and values:
these may be anything, also what is left of broken bytes.

  * `Markup.Throughout`            a property of a tree and of all that is below it
  * `Markup.Spelled`               what a node that was read is like
  * `Markup.readFrom_step`         what one step of reading does, and where it goes on
  * `Markup.parseTemplate_spelled` every tree that is read
-/

namespace LiveTemplate

/-! ## Bytes read as text -/

namespace Text

theorem ofNat_ne_of_lt {n : Nat} {c : Char} (solid : 0 < c.toNat) (small : c.toNat < n) :
    Char.ofNat n ≠ c := by
  intro same
  have value := congrArg Char.toNat same
  rw [Char.toNat_ofNat] at value
  split at value <;> omega

/-- In longer forms the first two bytes already carry enough. -/
theorem payload_of_isSecond {lead b : UInt8} (h : isSecond lead b = true) :
    (lead = 0xE0 → 32 ≤ payload b) ∧ (lead = 0xF0 → 16 ≤ payload b) := by
  constructor <;> rintro rfl
  all_goals
    simp [isSecond, UInt8.le_iff_toNat_le] at h
    unfold payload
    omega

/-- A byte beyond ASCII starts no ASCII character. -/
theorem decodeChar_wide {lead : UInt8} (high : ¬lead < 0x80) (rest : List UInt8) :
    ∃ n, 128 ≤ n ∧ (decodeChar lead rest).1 = Char.ofNat n := by
  have broken : ∃ n, 128 ≤ n ∧ replacement = Char.ofNat n := ⟨0xFFFD, by decide, rfl⟩
  unfold decodeChar
  rw [if_neg high]
  split
  case isTrue two =>
    split
    · split
      · refine ⟨_, ?_, rfl⟩
        simp [UInt8.le_iff_toNat_le] at two
        omega
      · exact broken
    · exact broken
  split
  case isTrue three =>
    split
    · split
      case isTrue b c r second =>
        split
        · refine ⟨_, ?_, rfl⟩
          have enough (first : lead.toNat = 0xE0) : 32 ≤ payload b :=
            (payload_of_isSecond second).1 (UInt8.toNat_inj.mp first)
          simp [UInt8.le_iff_toNat_le] at three
          omega
        · exact broken
      · exact broken
    · split <;> exact broken
    · exact broken
  split
  case isTrue four =>
    split
    · split
      case isTrue b c d r second =>
        split
        · split
          · refine ⟨_, ?_, rfl⟩
            have enough (first : lead.toNat = 0xF0) : 16 ≤ payload b :=
              (payload_of_isSecond second).2 (UInt8.toNat_inj.mp first)
            simp [UInt8.le_iff_toNat_le] at four
            omega
          · exact broken
        · exact broken
      · exact broken
    · split
      · split <;> exact broken
      · exact broken
    · split <;> exact broken
    · exact broken
  exact broken

theorem decodeChar_suffix (lead : UInt8) (rest : List UInt8) :
    (decodeChar lead rest).2 <:+ rest := by
  unfold decodeChar
  repeat' split
  all_goals simp [List.suffix_cons_iff]

/-- An ASCII character is a byte of its own. -/
theorem decodeChar_ascii {lead : UInt8} {rest : List UInt8} {c : Char} (solid : 0 < c.toNat)
    (ascii : c.toNat < 128) (h : (decodeChar lead rest).1 = c) :
    lead = UInt8.ofNat c.toNat ∧ (decodeChar lead rest).2 = rest := by
  by_cases low : lead < 0x80
  · unfold decodeChar at h ⊢
    rw [if_pos low] at h ⊢
    have small : lead.toNat < 128 := UInt8.lt_iff_toNat_lt.mp low
    have value := congrArg Char.toNat h
    rw [Char.toNat_ofNat, if_pos (.inl (by omega))] at value
    exact ⟨by rw [← value, UInt8.ofNat_toNat], rfl⟩
  · obtain ⟨n, wide, same⟩ := decodeChar_wide low rest
    rw [same] at h
    exact absurd h (ofNat_ne_of_lt solid (by omega))

/-- ASCII text in front of what is read stands in front of the bytes. -/
theorem prefix_of_decodeUtf8 {cs : List Char} (ascii : ∀ c ∈ cs, 0 < c.toNat ∧ c.toNat < 128)
    {bs : List UInt8} (h : cs <+: decodeUtf8 bs) :
    cs.map (fun c => UInt8.ofNat c.toNat) <+: bs := by
  induction cs generalizing bs with
  | nil => exact List.nil_prefix
  | cons c cs ih =>
    obtain ⟨⟨solid, small⟩, others⟩ := List.forall_mem_cons.mp ascii
    cases bs with
    | nil =>
      rw [decodeUtf8] at h
      cases List.prefix_nil.mp h
    | cons lead rest =>
      rw [decodeUtf8] at h
      obtain ⟨first, more⟩ := List.cons_prefix_cons.mp h
      obtain ⟨rfl, same⟩ := decodeChar_ascii solid small first.symm
      rw [same] at more
      exact List.cons_prefix_cons.mpr ⟨rfl, ih others more⟩

/-- ASCII text anywhere in what is read stands in the bytes. -/
theorem infix_of_decodeUtf8 {cs : List Char} (ascii : ∀ c ∈ cs, 0 < c.toNat ∧ c.toNat < 128)
    {bs : List UInt8} (h : cs <:+: decodeUtf8 bs) :
    cs.map (fun c => UInt8.ofNat c.toNat) <:+: bs := by
  fun_induction decodeUtf8 bs with
  | case1 =>
    cases List.infix_nil.mp h
    exact List.infix_rfl
  | case2 lead rest step ih =>
    rcases List.infix_cons_iff.mp h with front | later
    · refine (prefix_of_decodeUtf8 ascii ?_).isInfix
      rw [decodeUtf8]
      exact front
    · exact (ih later).trans ((decodeChar_suffix lead rest).trans (List.suffix_cons lead rest)).isInfix

/-- What stands before the first occurrence of a mark is free of it. -/
theorem breakOn?_free {α : Type} [BEq α] [LawfulBEq α] {mark as before after : List α}
    (solid : mark ≠ []) (h : breakOn? mark as = some (before, after)) : ¬mark <:+: before := by
  induction as generalizing before with
  | nil =>
    simp only [breakOn?] at h
    split at h
    case isTrue empty => exact absurd (List.isEmpty_iff.mp empty) solid
    case isFalse => cases h
  | cons a rest ih =>
    have whole := breakOn?_eq_append h
    simp only [breakOn?] at h
    split at h
    case isTrue =>
      cases h
      exact fun inside => solid (List.infix_nil.mp inside)
    case isFalse missed =>
      obtain ⟨⟨front, back⟩, found, same⟩ := Option.map_eq_some_iff.mp h
      cases same
      intro inside
      rcases List.infix_cons_iff.mp inside with first | later
      · refine missed (List.isPrefixOf_iff_prefix.mpr ?_)
        rw [whole, List.append_assoc]
        exact first.trans (List.prefix_append _ _)
      · exact ih found later

end Text

/-! ## What is read -/

namespace Markup

mutual

/-- Whether two trees are the same. -/
def same : (a b : Markup) → Decidable (a = b)
  | .element tag attributes kids, .element tag' attributes' kids' =>
    match decEq tag tag', decEq attributes attributes', sameAll kids kids' with
    | isTrue h, isTrue h', isTrue h'' => isTrue (by rw [h, h', h''])
    | isFalse h, _, _ => isFalse fun e => h (by cases e; rfl)
    | _, isFalse h, _ => isFalse fun e => h (by cases e; rfl)
    | _, _, isFalse h => isFalse fun e => h (by cases e; rfl)
  | .text a, .text b => decidable_of_iff (a = b) ⟨fun h => by rw [h], fun h => by cases h; rfl⟩
  | .comment a, .comment b =>
    decidable_of_iff (a = b) ⟨fun h => by rw [h], fun h => by cases h; rfl⟩
  | .element _ _ _, .text _ | .element _ _ _, .comment _ | .text _, .element _ _ _
  | .text _, .comment _ | .comment _, .element _ _ _ | .comment _, .text _ => isFalse nofun

def sameAll : (as bs : List Markup) → Decidable (as = bs)
  | [], [] => isTrue rfl
  | a :: as, b :: bs =>
    match same a b, sameAll as bs with
    | isTrue h, isTrue h' => isTrue (by rw [h, h'])
    | isFalse h, _ => isFalse fun e => h (by cases e; rfl)
    | _, isFalse h => isFalse fun e => h (by cases e; rfl)
  | [], _ :: _ | _ :: _, [] => isFalse nofun

end

instance : DecidableEq Markup := same

/-- A property of a tree and of all that is below it. -/
inductive Throughout (P : Markup → Prop) : Markup → Prop
  | intro {m : Markup} (here : P m) (below : ∀ kid ∈ m.children, Throughout P kid) :
      Throughout P m

/-- A node as it can be read. -/
def Spelled : Markup → Prop
  | .element tag attributes kids => IsWord isTagChar tag ∧
      (∀ entry ∈ attributes, IsWord isNameChar entry.1) ∧ (tag.toLower ∈ voidTags → kids = [])
  | .text _ => True
  | .comment content => ¬"-->".toList <:+: content.toList

/-- Bytes of one kind are a word. -/
theorem isWord_ofBytes {kind : Char → Bool} {kindByte : UInt8 → Bool}
    (small : ∀ b, kindByte b = true → b < 0x80)
    (agree : ∀ {c : Char}, c.toNat < 128 → kindByte (byteOf c) = kind c) {bs : List UInt8}
    (solid : bs ≠ []) (all : ∀ b ∈ bs, kindByte b = true) : IsWord kind (Text.ofBytes bs) := by
  let cs := bs.map fun b => Char.ofNat b.toNat
  have back : ∀ b ∈ bs, (Char.ofNat b.toNat).toNat = b.toNat := by
    intro b mem
    have low : b.toNat < 128 := UInt8.lt_iff_toNat_lt.mp (small b (all b mem))
    rw [Char.toNat_ofNat, if_pos (.inl (by omega))]
  have bytes : bs = Text.encodeUtf8 cs := by
    rw [bytes_ascii]
    · rw [List.map_map]
      refine (List.map_id' bs).symm.trans (List.map_congr_left fun b mem => ?_)
      rw [Function.comp_apply, byteOf, back b mem, UInt8.ofNat_toNat]
    · intro c mem
      obtain ⟨b, held, rfl⟩ := List.mem_map.mp mem
      rw [back b held]
      exact UInt8.lt_iff_toNat_lt.mp (small b (all b held))
  have same : (Text.ofBytes bs).toList = cs := by
    rw [Text.ofBytes, String.toList_ofList, bytes, Text.decodeUtf8_encodeUtf8]
  refine ⟨fun empty => solid ?_, fun c mem => ?_⟩
  · rw [empty] at same
    exact List.map_eq_nil_iff.mp same.symm
  · rw [same] at mem
    obtain ⟨b, held, rfl⟩ := List.mem_map.mp mem
    have low : b.toNat < 128 := UInt8.lt_iff_toNat_lt.mp (small b (all b held))
    rw [← agree (by rw [back b held]; exact low), byteOf, back b held, UInt8.ofNat_toNat]
    exact all b held

theorem isNameByte_ascii {b : UInt8} (h : isNameByte b = true) : b < 0x80 := by
  have marks : ∀ b ∈ mark "_-:@.", b < 0x80 := by decide +kernel
  rcases Bool.or_eq_true_iff.mp h with h | h
  · exact of_decide_eq_true (Bool.and_eq_true_iff.mp h).1
  · exact marks b (List.contains_iff_mem.mp h)

theorem isNameByte_of_isTagByte {b : UInt8} (h : isTagByte b = true) : isNameByte b = true := by
  have marks : ∀ b ∈ mark "_-:", b ∈ mark "_-:@." := by decide +kernel
  refine Bool.or_eq_true_iff.mpr ((Bool.or_eq_true_iff.mp h).imp_right fun mem => ?_)
  exact List.contains_iff_mem.mpr (marks b (List.contains_iff_mem.mp mem))

/-- The names of attributes are words. -/
theorem readTagTail_names {total start : Nat} {attributes : List (String × String)}
    {selfClosing : Bool} {bs : List UInt8} {tail : TagTail}
    (h : readTagTail total start attributes selfClosing bs = .ok tail)
    (names : ∀ entry ∈ attributes, IsWord isNameChar entry.1) :
    ∀ entry ∈ tail.attributes, IsWord isNameChar entry.1 := by
  fun_induction readTagTail total start attributes selfClosing bs with
  | case1 => cases h
  | case2 _ _ _ _ _ ih => exact ih h names
  | case3 => cases h; exact names
  | case4 => cases h
  | case5 attributes _ _ b rest _ _ _ named value after _ name _ ih =>
    refine ih h fun entry mem => ?_
    rcases List.mem_append.mp mem with mem | mem
    · exact names entry mem
    · rw [List.mem_singleton.mp mem]
      refine isWord_ofBytes (fun _ => isNameByte_ascii) isNameByte_byteOf (List.cons_ne_nil b _) ?_
      intro x inside
      rcases List.mem_cons.mp inside with rfl | inside
      · exact named
      · exact List.mem_takeWhile_imp inside
  | case6 _ _ _ _ _ _ _ _ _ ih => exact ih h names

/-- An element whose end is still to come is not void, and what it has so far is spelled. -/
structure OpenElement.Spelled (top : OpenElement) : Prop where
  tag : IsWord isTagChar top.tag
  names : ∀ entry ∈ top.attributes, IsWord isNameChar entry.1
  solid : top.tag.toLower ∉ voidTags
  each : ∀ kid ∈ top.children, kid.Throughout Markup.Spelled

structure Reading.Spelled (state : Reading) : Prop where
  stack : ∀ top ∈ state.stack, top.Spelled
  roots : ∀ m ∈ state.roots, m.Throughout Markup.Spelled

theorem Reading.Spelled.add {state : Reading} (h : state.Spelled) {m : Markup}
    (spelled : m.Throughout Markup.Spelled) : (state.add m).Spelled := by
  obtain ⟨stack, roots⟩ := state
  cases stack with
  | nil =>
    refine ⟨h.stack, fun x mem => ?_⟩
    rcases List.mem_append.mp mem with mem | mem
    · exact h.roots x mem
    · rwa [List.mem_singleton.mp mem]
  | cons top outer =>
    obtain ⟨first, others⟩ := List.forall_mem_cons.mp h.stack
    refine ⟨List.forall_mem_cons.mpr ⟨⟨first.tag, first.names, first.solid, fun x mem => ?_⟩,
      others⟩, h.roots⟩
    rcases List.mem_append.mp mem with mem | mem
    · exact first.each x mem
    · rwa [List.mem_singleton.mp mem]

theorem Reading.Spelled.close {state state' : Reading} (h : state.Spelled) {tag : String}
    {offset : Nat} (closed : state.close tag offset = .ok state') : state'.Spelled := by
  obtain ⟨stack, roots⟩ := state
  unfold Reading.close at closed
  cases stack with
  | nil => cases closed
  | cons top outer =>
    obtain ⟨first, others⟩ := List.forall_mem_cons.mp h.stack
    dsimp only at closed
    split at closed
    case isTrue same =>
      cases closed
      subst same
      have outer : Reading.Spelled ⟨outer, roots⟩ := ⟨others, h.roots⟩
      have spelled : Markup.Spelled (.element top.tag top.attributes top.children) :=
        ⟨first.tag, first.names, fun void => (first.solid void).elim⟩
      exact outer.add (.intro spelled first.each)
    case isFalse => cases closed

/-- Where reading goes on after the piece in front: a text, or what stands behind a `<`. -/
def afterPiece (total : Nat) (b : UInt8) (rest : List UInt8) : List UInt8 :=
  if b = byteOf '<' then
    if (mark "!--").isPrefixOf rest then
      ((Text.breakOn? (mark "-->") (rest.drop 3)).map Prod.snd).getD []
    else if (mark "!").isPrefixOf rest then ((Text.breakOn? (mark ">") rest).map Prod.snd).getD []
    else if (mark "/").isPrefixOf rest then (readClosing (rest.drop 1)).2
    else
      match readTagTail total (total - (b :: rest).length) [] false (rest.dropWhile isTagByte) with
      | .error _ => []
      | .ok tail => tail.rest
  else afterText (b :: rest)

theorem length_afterPiece (total : Nat) (b : UInt8) (rest : List UInt8) :
    (afterPiece total b rest).length < (b :: rest).length := by
  have broken (close bs : List UInt8) :
      (((Text.breakOn? close bs).map Prod.snd).getD []).length ≤ bs.length := by
    cases found : Text.breakOn? close bs with
    | none => exact Nat.zero_le _
    | some parts => exact Text.length_breakOn? found
  unfold afterPiece
  split
  case isFalse other => exact length_afterText_lt rest other
  refine Nat.lt_succ_of_le ?_
  split
  · exact (broken _ _).trans (List.drop_suffix 3 rest).length_le
  split
  · exact broken _ _
  split
  · exact (length_readClosing _).trans (List.drop_suffix 1 rest).length_le
  split
  · exact Nat.zero_le _
  case h_2 tail found =>
    exact (length_readTagTail found).trans (List.dropWhile_suffix isTagByte).length_le

/-- What the step of reading at `b :: rest` can do. -/
inductive Reading.Next (state : Reading) (b : UInt8) (rest : List UInt8) : Reading → Prop
  | pass (tag : b = byteOf '<') : Next state b rest state
  | text (other : b ≠ byteOf '<') : Next state b rest (state.add (.text (String.ofList
      (decodeEntities (Text.decodeUtf8 (upTo (b :: rest) (afterText (b :: rest))))))))
  | leaf {m : Markup} (tag : b = byteOf '<') (spelled : m.Spelled) (leaf : m.children = [])
      (mute : m.isText = false) : Next state b rest (state.add m)
  | opens {top : OpenElement} (tag : b = byteOf '<') (spelled : top.Spelled)
      (empty : top.children = []) : Next state b rest { state with stack := top :: state.stack }
  | closes {name : String} {offset : Nat} {state' : Reading} (tag : b = byteOf '<')
      (closed : state.close name offset = .ok state') : Next state b rest state'

theorem Reading.Spelled.next {state state' : Reading} (h : state.Spelled) {b : UInt8}
    {rest : List UInt8} (next : state.Next b rest state') : state'.Spelled := by
  cases next with
  | pass => exact h
  | text => exact h.add (.intro trivial fun _ mem => (List.not_mem_nil mem).elim)
  | leaf _ spelled leaf =>
    refine h.add (.intro spelled fun kid mem => ?_)
    rw [leaf] at mem
    cases mem
  | opens _ spelled => exact ⟨List.forall_mem_cons.mpr ⟨spelled, h.stack⟩, h.roots⟩
  | closes _ closed => exact h.close closed

theorem comment_free {bs content after : List UInt8}
    (found : Text.breakOn? (mark "-->") bs = some (content, after)) :
    ¬"-->".toList <:+: (Text.ofBytes content).toList := by
  intro inside
  rw [Text.ofBytes, String.toList_ofList, String.toList_ofList] at inside
  have ascii : ∀ c ∈ ['-', '-', '>'], 0 < c.toNat ∧ c.toNat < 128 := by simp
  exact Text.breakOn?_free (by decide +kernel) found (Text.infix_of_decodeUtf8 ascii inside)

theorem readFrom_step {total : Nat} {state : Reading} {b : UInt8} {rest : List UInt8}
    {ms : List Markup} (read : readFrom total state (b :: rest) = .ok ms) :
    ∃ state', state.Next b rest state' ∧
      readFrom total state' (afterPiece total b rest) = .ok ms := by
  rw [readFrom] at read
  dsimp only at read
  unfold afterPiece
  split at read
  case isFalse other =>
    rw [if_neg other]
    exact ⟨_, .text other, read⟩
  case isTrue tag =>
  rw [if_pos tag]
  split at read
  case isTrue front =>
    rw [if_pos front]
    split at read
    · cases read
    case h_2 content after found =>
      rw [found]
      exact ⟨_, .leaf (m := .comment _) tag (comment_free found) rfl rfl, read⟩
  case isFalse front =>
  rw [if_neg front]
  split at read
  case isTrue front =>
    rw [if_pos front]
    split at read
    · cases read
    case h_2 content after found =>
      rw [found]
      exact ⟨_, .pass tag, read⟩
  case isFalse front =>
  rw [if_neg front]
  split at read
  case isTrue front =>
    rw [if_pos front]
    split at read
    · cases read
    case h_2 state' closed => exact ⟨_, .closes tag closed, read⟩
  case isFalse front =>
  rw [if_neg front]
  split at read
  · cases read
  case isFalse solid =>
    split at read
    · cases read
    case h_2 tail found =>
      have word : IsWord isTagChar (Text.ofBytes (rest.takeWhile isTagByte)) := by
        refine isWord_ofBytes (fun b tag => isNameByte_ascii (isNameByte_of_isTagByte tag))
          isTagByte_byteOf (fun empty => solid ?_) fun b mem => List.mem_takeWhile_imp mem
        rw [empty, Text.ofBytes, Text.decodeUtf8]
      have names := readTagTail_names found fun _ mem => (List.not_mem_nil mem).elim
      rw [found]
      split at read
      case isTrue =>
        exact ⟨_, .leaf (m := .element _ _ []) tag ⟨word, names, fun _ => rfl⟩ rfl rfl, read⟩
      case isFalse goesOn =>
        refine ⟨_, .opens tag ⟨word, names, fun void => goesOn ?_, fun _ mem => ?_⟩ rfl, read⟩
        · rw [List.contains_iff_mem.mpr void, Bool.or_true]
        · exact (List.not_mem_nil mem).elim

/-- Whatever is read is spelled. -/
theorem readFrom_spelled {total : Nat} {state : Reading} {bs : List UInt8} {ms : List Markup}
    (h : state.Spelled) (read : readFrom total state bs = .ok ms) :
    ∀ m ∈ ms, m.Throughout Markup.Spelled := by
  induction size : bs.length using Nat.strong_induction_on generalizing state bs with
  | _ n ih =>
    cases bs with
    | nil =>
      rw [readFrom, Reading.finish] at read
      split at read
      · cases read
        exact h.roots
      · cases read
    | cons b rest =>
      obtain ⟨state', next, read⟩ := readFrom_step read
      exact ih _ (size ▸ length_afterPiece total b rest) (h.next next) read rfl

/-- A template is one of the nodes that were read. -/
theorem parseTemplate_ok {source : String} {root : Markup}
    (read : parseTemplate source = .ok root) :
    ∃ nodes, parseFragment source = .ok nodes ∧ root ∈ nodes ∧ root.isElement = true := by
  unfold parseTemplate at read
  obtain ⟨nodes, found, read⟩ := exists_of_bind_eq_ok read
  split at read
  · cases read
  case h_2 only =>
    cases read
    have mem : root ∈ nodes.filter isElement := by rw [only]; exact List.mem_singleton_self root
    obtain ⟨listed, element⟩ := List.mem_filter.mp mem
    exact ⟨nodes, found, listed, element⟩
  · cases read

theorem parseTemplate_spelled {source : String} {m : Markup} (read : parseTemplate source = .ok m) :
    m.Throughout Markup.Spelled ∧ ∃ tag attributes kids, m = .element tag attributes kids := by
  obtain ⟨nodes, found, listed, element⟩ := parseTemplate_ok read
  have all := readFrom_spelled ⟨fun _ mem => (List.not_mem_nil mem).elim,
    fun _ mem => (List.not_mem_nil mem).elim⟩ found
  refine ⟨all m listed, ?_⟩
  cases m with
  | element tag attributes kids => exact ⟨tag, attributes, kids, rfl⟩
  | text content => cases element
  | comment content => cases element

end Markup
end LiveTemplate
