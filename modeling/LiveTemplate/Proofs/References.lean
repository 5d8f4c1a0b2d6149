import LiveTemplate.Expr.Eval
import LiveTemplate.Proofs.Numbers

/-!
# LiveTemplate.Proofs.References

Values up to the references of their lists and maps. A pairing says which list or map on one side
stands for which on the other; values are alike under it when they differ in nothing else. What
expressions can see of a value is the same for alike values, as long as the pairing is one to one.

  * `Value.Alike`      equal but for paired references
  * `Value.Fits`       every list and map in a value is the one that its reference names
  * `Value.Close`      equal, or the two zeros: all that `identical` can overlook
-/

namespace LiveTemplate

/-- Which list or map of one side stands for which of the other. -/
abbrev Pairing := Value → Value → Prop

/-- The lists and maps that there are. -/
abbrev Heap := Value → Prop

namespace Value

def ref? : Value → Option Ref
  | .list ref _ | .map ref _ => some ref
  | _ => none

/-- Two lists, or two maps, with one reference. -/
def Shares : Value → Value → Prop
  | .list a _, .list b _ | .map a _, .map b _ => a = b
  | _, _ => False

inductive Alike (pairs : Pairing) : Value → Value → Prop
  | scalar (v : Value) (h : v.ref? = none) : Alike pairs v v
  | list {a b : Ref} {xs ys : List Value} (paired : pairs (.list a xs) (.list b ys))
      (length : xs.length = ys.length) (items : ∀ p ∈ xs.zip ys, Alike pairs p.1 p.2) :
      Alike pairs (.list a xs) (.list b ys)
  | map {a b : Ref} {es fs : List (String × Value)} (paired : pairs (.map a es) (.map b fs))
      (names : es.map Prod.fst = fs.map Prod.fst)
      (entries : ∀ p ∈ es.zip fs, Alike pairs p.1.2 p.2.2) :
      Alike pairs (.map a es) (.map b fs)

/-- Every list and map in the value is on the heap. -/
inductive Fits (heap : Heap) : Value → Prop
  | scalar (v : Value) (h : v.ref? = none) : Fits heap v
  | list {ref : Ref} {items : List Value} (held : heap (.list ref items))
      (inside : ∀ v ∈ items, Fits heap v) : Fits heap (.list ref items)
  | map {ref : Ref} {entries : List (String × Value)} (held : heap (.map ref entries))
      (inside : ∀ e ∈ entries, Fits heap e.2) : Fits heap (.map ref entries)

end Value

/-! ## Pairings and heaps -/

namespace Pairing

def Extends (more pairs : Pairing) : Prop := ∀ a b, pairs a b → more a b

theorem Extends.refl (pairs : Pairing) : pairs.Extends pairs := fun _ _ h => h

theorem Extends.trans {a b c : Pairing} (h : b.Extends a) (k : c.Extends b) : c.Extends a :=
  fun x y hxy => k x y (h x y hxy)

/-- One to one: what shares a reference with one of a pair is that one. -/
def Faithful (pairs : Pairing) : Prop :=
  ∀ a b c d, pairs a b → pairs c d → a.Shares c ∨ b.Shares d → a = c ∧ b = d

/-- One to one, with all references on either side below the next ones. -/
structure Sound (pairs : Pairing) (left right : Ref) : Prop where
  faithful : pairs.Faithful
  below_left : ∀ a b r, pairs a b → a.ref? = some r → r < left
  below_right : ∀ a b r, pairs a b → b.ref? = some r → r < right

end Pairing

def Heap.Extends (more heap : Heap) : Prop := ∀ v, heap v → more v

theorem Heap.Extends.refl (heap : Heap) : heap.Extends heap := fun _ h => h

theorem Heap.Extends.trans {a b c : Heap} (h : b.Extends a) (k : c.Extends b) : c.Extends a :=
  fun v hv => k v (h v hv)

/-- One list or map for each reference, all below the next one. -/
structure Heap.Sound (heap : Heap) (next : Ref) : Prop where
  single : ∀ a b, heap a → heap b → a.Shares b → a = b
  below : ∀ a r, heap a → a.ref? = some r → r < next

/-- Each list and map of a heap stands for itself. -/
def Heap.diagonal (heap : Heap) : Pairing := fun a b => a = b ∧ heap a

theorem Heap.Sound.diagonal {heap : Heap} {next : Ref} (h : heap.Sound next) :
    heap.diagonal.Sound next next where
  faithful := by
    rintro a b c d ⟨rfl, ha⟩ ⟨rfl, hc⟩ shared
    have same : a = c := h.single a c ha hc (shared.elim id id)
    exact ⟨same, same⟩
  below_left := by
    rintro a b r ⟨rfl, ha⟩ hr
    exact h.below a r ha hr
  below_right := by
    rintro a b r ⟨rfl, ha⟩ hr
    exact h.below a r ha hr

/-- The part of a pairing that pairs values with themselves is a heap. -/
theorem Pairing.Sound.heap {pairs : Pairing} {next : Ref} (h : pairs.Sound next next) :
    Heap.Sound (fun v => pairs v v) next where
  single := fun a b ha hb shared => (h.faithful a a b b ha hb (.inl shared)).1
  below := fun a r ha hr => h.below_left a a r ha hr

namespace Value

variable {pairs : Pairing}

theorem Alike.mono {more : Pairing} {a b : Value} (h : Alike pairs a b)
    (le : more.Extends pairs) : Alike more a b := by
  induction h with
  | scalar v h => exact .scalar v h
  | list paired length _ ih => exact .list (le _ _ paired) length ih
  | map paired names _ ih => exact .map (le _ _ paired) names ih

theorem Fits.mono {heap more : Heap} {v : Value} (h : Fits heap v) (le : more.Extends heap) :
    Fits more v := by
  induction h with
  | scalar v h => exact .scalar v h
  | list held _ ih => exact .list (le _ held) ih
  | map held _ ih => exact .map (le _ held) ih

theorem mem_zip_self {α : Type} {xs : List α} {p : α × α} (h : p ∈ xs.zip xs) :
    p.1 = p.2 ∧ p.1 ∈ xs := by
  induction xs with
  | nil => cases h
  | cons x xs ih =>
    rcases List.mem_cons.mp h with rfl | h
    · exact ⟨rfl, List.mem_cons_self⟩
    · exact ⟨(ih h).1, List.mem_cons_of_mem _ (ih h).2⟩

theorem Fits.alike {heap : Heap} {v : Value} (h : Fits heap v)
    (le : ∀ v, heap v → pairs v v) : Alike pairs v v := by
  induction h with
  | scalar v h => exact .scalar v h
  | list held _ ih =>
    refine .list (le _ held) rfl ?_
    intro p hp
    obtain ⟨same, mem⟩ := mem_zip_self hp
    rw [← same]
    exact ih p.1 mem
  | map held _ ih =>
    refine .map (le _ held) rfl ?_
    intro p hp
    obtain ⟨same, mem⟩ := mem_zip_self hp
    rw [← same]
    exact ih p.1 mem

theorem zip_self_mem {α : Type} {xs : List α} {x : α} (h : x ∈ xs) : (x, x) ∈ xs.zip xs := by
  induction xs with
  | nil => cases h
  | cons y xs ih =>
    rcases List.mem_cons.mp h with rfl | h
    · exact List.mem_cons_self
    · exact List.mem_cons_of_mem _ (ih h)

theorem Alike.fits {a b : Value} (h : Alike pairs a b) (same : a = b) :
    Fits (fun v => pairs v v) a := by
  induction h with
  | scalar v h => exact .scalar v h
  | list paired _ _ ih =>
    cases same
    exact .list paired fun v hv => ih (v, v) (zip_self_mem hv) rfl
  | map paired _ _ ih =>
    cases same
    exact .map paired fun e he => ih (e, e) (zip_self_mem he) rfl

/-! ## What alike values have in common -/

theorem Alike.isNullish {a b : Value} (h : Alike pairs a b) : a.isNullish = b.isNullish := by
  cases h <;> rfl

theorem Alike.typeName {a b : Value} (h : Alike pairs a b) : a.typeName = b.typeName := by
  cases h <;> rfl

theorem Alike.isTruthy {a b : Value} (h : Alike pairs a b) : a.isTruthy = b.isTruthy := by
  cases h <;> rfl

theorem Alike.isNumeric {a b : Value} (h : Alike pairs a b) :
    BinaryOp.isNumeric a = BinaryOp.isNumeric b := by
  cases h <;> rfl

theorem Alike.toNumber {a b : Value} (h : Alike pairs a b) : a.toNumber = b.toNumber := by
  induction h with
  | scalar v h => rfl
  | @list a b xs ys paired length items ih =>
    match xs, ys, length with
    | [], [], _ => rfl
    | [x], [y], _ => exact ih (x, y) List.mem_cons_self
    | _ :: _ :: _, _ :: _ :: _, _ => simp only [Value.toNumber]
  | map paired names entries ih => simp only [Value.toNumber]

theorem itemTexts_eq_map (items : List Value) :
    itemTexts items = items.map fun item => if item.isNullish then "" else item.text := by
  induction items with
  | nil => rfl
  | cons item rest ih => rw [itemTexts, ih, List.map_cons]

theorem map_eq_map_of_zip {α β γ : Type} {f : α → γ} {g : β → γ} {xs : List α} {ys : List β}
    (length : xs.length = ys.length) (h : ∀ p ∈ xs.zip ys, f p.1 = g p.2) :
    xs.map f = ys.map g := by
  induction xs generalizing ys with
  | nil =>
    cases ys with
    | nil => rfl
    | cons y ys => cases length
  | cons x xs ih =>
    cases ys with
    | nil => cases length
    | cons y ys =>
      rw [List.map_cons, List.map_cons, h (x, y) List.mem_cons_self,
        ih (Nat.succ.inj length) fun p hp => h p (List.mem_cons_of_mem _ hp)]

theorem Alike.text {a b : Value} (h : Alike pairs a b) : a.text = b.text := by
  induction h with
  | scalar v h => rfl
  | list paired length items ih =>
    rw [Value.text, Value.text, itemTexts_eq_map, itemTexts_eq_map]
    congr 1
    refine map_eq_map_of_zip length ?_
    intro p hp
    rw [(items p hp).isNullish, ih p hp]
  | map paired names entries ih => simp only [Value.text]

theorem Alike.identical {a b c d : Value} (faithful : pairs.Faithful) (h : Alike pairs a b)
    (k : Alike pairs c d) : a.identical c = b.identical d := by
  cases h with
  | scalar _ hv =>
    cases k with
    | scalar _ hw => rfl
    | list => cases a <;> first | rfl | cases hv
    | map => cases a <;> first | rfl | cases hv
  | list paired =>
    cases k with
    | scalar _ hw => cases c <;> first | rfl | cases hw
    | list paired' =>
      rw [Value.identical, Value.identical, Bool.eq_iff_iff, beq_iff_eq, beq_iff_eq]
      constructor
      · intro same
        cases (faithful _ _ _ _ paired paired' (.inl same)).2
        rfl
      · intro same
        cases (faithful _ _ _ _ paired paired' (.inr same)).1
        rfl
    | map => rfl
  | map paired =>
    cases k with
    | scalar _ hw => cases c <;> first | rfl | cases hw
    | list => rfl
    | map paired' =>
      rw [Value.identical, Value.identical, Bool.eq_iff_iff, beq_iff_eq, beq_iff_eq]
      constructor
      · intro same
        cases (faithful _ _ _ _ paired paired' (.inl same)).2
        rfl
      · intro same
        cases (faithful _ _ _ _ paired paired' (.inr same)).1
        rfl

theorem Alike.looselyEqual {a b c d : Value} (faithful : pairs.Faithful) (h : Alike pairs a b)
    (k : Alike pairs c d) : a.looselyEqual c = b.looselyEqual d := by
  have same := h.identical faithful k
  cases h with
  | scalar _ hv =>
    cases k with
    | scalar _ hw => rfl
    | list => cases a <;> first | rfl | cases hv
    | map => cases a <;> first | rfl | cases hv
  | list =>
    cases k with
    | scalar _ hw => cases c <;> first | rfl | cases hw
    | list => exact same
    | map => rfl
  | map =>
    cases k with
    | scalar _ hw => cases c <;> first | rfl | cases hw
    | list => rfl
    | map => exact same

theorem Alike.compareValues {a b c d : Value} (h : Alike pairs a b) (k : Alike pairs c d) :
    BinaryOp.compareValues a c = BinaryOp.compareValues b d := by
  have left := h.toNumber
  have right := k.toNumber
  cases h with
  | scalar _ hv =>
    cases k with
    | scalar _ hw => rfl
    | list => cases a <;> simp only [BinaryOp.compareValues, right]
    | map => cases a <;> simp only [BinaryOp.compareValues, right]
  | list => simp only [BinaryOp.compareValues, left, right]
  | map => simp only [BinaryOp.compareValues, left, right]

theorem Alike.unary {a b : Value} (op : UnaryOp) (h : Alike pairs a b) :
    Alike pairs (op.apply a) (op.apply b) := by
  cases op with
  | not =>
    rw [UnaryOp.apply, UnaryOp.apply, h.isTruthy]
    exact .scalar _ rfl
  | neg =>
    rw [UnaryOp.apply, UnaryOp.apply, h.toNumber]
    exact .scalar _ rfl

theorem Alike.binary {a b c d : Value} (op : BinaryOp) (faithful : pairs.Faithful)
    (h : Alike pairs a b) (k : Alike pairs c d) :
    Alike pairs (op.apply a c) (op.apply b d) := by
  have same : op.apply a c = op.apply b d := by
    cases op <;> simp only [BinaryOp.apply, h.isNumeric, k.isNumeric, h.toNumber, k.toNumber,
      h.text, k.text, h.identical faithful k, h.looselyEqual faithful k, h.compareValues k]
  rw [same]
  refine .scalar _ ?_
  cases op <;> simp only [BinaryOp.apply] <;> first | rfl | (split <;> rfl)

theorem Alike.lookup {es fs : List (String × Value)} (name : String)
    (names : es.map Prod.fst = fs.map Prod.fst)
    (entries : ∀ p ∈ es.zip fs, Alike pairs p.1.2 p.2.2) :
    Alike pairs ((es.lookup name).getD .undefined) ((fs.lookup name).getD .undefined) := by
  induction es generalizing fs with
  | nil =>
    cases fs with
    | nil => exact .scalar _ rfl
    | cons f fs => cases names
  | cons e es ih =>
    cases fs with
    | nil => cases names
    | cons f fs =>
      obtain ⟨n, v⟩ := e
      obtain ⟨m, w⟩ := f
      simp only [List.map_cons, List.cons.injEq] at names
      obtain ⟨rfl, names⟩ := names
      simp only [List.lookup_cons]
      cases name == n with
      | true => exact entries ((n, v), (n, w)) List.mem_cons_self
      | false => exact ih names fun p hp => entries p (List.mem_cons_of_mem _ hp)

theorem Alike.property {a b : Value} (name : String) (h : Alike pairs a b) :
    Alike pairs (a.property name) (b.property name) := by
  cases h with
  | scalar _ hv =>
    cases a with
    | map => cases hv
    | string s => rw [Value.property]; split <;> exact .scalar _ rfl
    | list => cases hv
    | _ => exact .scalar _ rfl
  | list paired length items =>
    rw [Value.property, Value.property, length]
    split <;> exact .scalar _ rfl
  | map paired names entries => exact Alike.lookup name names entries

theorem Alike.getElem {xs ys : List Value} (i : Nat) (length : xs.length = ys.length)
    (items : ∀ p ∈ xs.zip ys, Alike pairs p.1 p.2) :
    Alike pairs (xs[i]?.getD .undefined) (ys[i]?.getD .undefined) := by
  by_cases h : i < xs.length
  · have mem : (xs[i], ys[i]) ∈ xs.zip ys := by
      rw [List.mem_iff_getElem]
      exact ⟨i, by simp; omega, by simp⟩
    rw [List.getElem?_eq_getElem h, List.getElem?_eq_getElem (by omega)]
    exact items _ mem
  · rw [List.getElem?_eq_none (by omega), List.getElem?_eq_none (by omega)]
    exact .scalar _ rfl

theorem Alike.element {a b c d : Value} (h : Alike pairs a b) (k : Alike pairs c d) :
    Alike pairs (a.element c) (b.element d) := by
  have other : Alike pairs (a.property c.text) (b.property d.text) := by
    rw [k.text]
    exact h.property _
  cases h with
  | scalar _ hv =>
    cases k with
    | scalar _ hw =>
      refine .scalar _ ?_
      cases a with
      | list => cases hv
      | map => cases hv
      | string s =>
        have plain (name : String) : ((string s).property name).ref? = none := by
          rw [Value.property]; split <;> rfl
        cases c with
        | number x =>
          rw [Value.element]
          split
          · split <;> rfl
          · exact plain _
        | _ => simp only [Value.element]; exact plain _
      | _ => rfl
    | list => cases a <;> exact other
    | map => cases a <;> exact other
  | list paired length items =>
    cases k with
    | scalar _ hw =>
      cases c with
      | number x =>
        rw [Value.element, Value.element]
        split
        · exact Alike.getElem _ length items
        · exact other
      | _ => exact other
    | list => exact other
    | map => exact other
  | map => exact other

/-! ## What `identical` can overlook -/

/-- Equal, or the two zeros. -/
def Close (a b : Value) : Prop :=
  a = b ∨ ∃ x y, a = .number x ∧ b = .number y ∧ Number.Same x y

theorem Close.refl (a : Value) : Close a a := .inl rfl

theorem Close.trans {a b c : Value} (h : Close a b) (k : Close b c) : Close a c := by
  rcases h with rfl | ⟨x, y, rfl, rfl, h⟩
  · exact k
  · rcases k with rfl | ⟨_, z, same, rfl, k⟩
    · exact .inr ⟨x, y, rfl, rfl, h⟩
    · cases same
      exact .inr ⟨x, z, rfl, rfl, h.trans k⟩

theorem Close.text {a b : Value} (h : Close a b) : a.text = b.text := by
  rcases h with rfl | ⟨x, y, rfl, rfl, h⟩
  · rfl
  · rw [Value.text, Value.text, Number.text_of_same h]

theorem Close.isTruthy {a b : Value} (h : Close a b) : a.isTruthy = b.isTruthy := by
  rcases h with rfl | ⟨x, y, rfl, rfl, h⟩
  · rfl
  · exact isTruthy_of_same h

theorem Fits.held {heap : Heap} {v : Value} (h : Fits heap v) (shared : v.ref? ≠ none) :
    heap v := by
  cases h with
  | scalar _ none => exact absurd none shared
  | list held _ => exact held
  | map held _ => exact held

theorem Shares.ref? {a b : Value} (h : a.Shares b) : a.ref? ≠ none ∧ b.ref? ≠ none := by
  cases a <;> cases b <;> simp [Shares, Value.ref?] at h ⊢

/-- Two lists or maps of one heap that have one reference are one. -/
theorem Fits.eq_of_shares {heap : Heap} (single : ∀ v w, heap v → heap w → v.Shares w → v = w)
    {a b : Value} (fa : Fits heap a) (fb : Fits heap b) (shares : a.Shares b) : a = b :=
  single a b (fa.held shares.ref?.1) (fb.held shares.ref?.2) shares

theorem close_of_shared {a b : Value} (shared : a.Shares b → a = b) (h : a.identical b = true) :
    Close a b := by
  cases a with
  | number x =>
    cases b with
    | number y => exact .inr ⟨x, y, rfl, rfl, Number.same_of_beq h⟩
    | _ => cases h
  | undefined => cases b <;> first | exact .refl _ | cases h
  | null => cases b <;> first | exact .refl _ | cases h
  | bool p => cases b <;> first | exact .inl (congrArg _ (eq_of_beq h)) | cases h
  | string s => cases b <;> first | exact .inl (congrArg _ (eq_of_beq h)) | cases h
  | function f => cases b <;> first | exact .inl (congrArg _ (eq_of_beq h)) | cases h
  | list ref items => cases b <;> first | exact .inl (shared (eq_of_beq h)) | cases h
  | map ref entries => cases b <;> first | exact .inl (shared (eq_of_beq h)) | cases h

theorem close_of_identical {heap : Heap} {next : Ref} (sound : heap.Sound next) {a b : Value}
    (fa : Fits heap a) (fb : Fits heap b) (h : a.identical b = true) : Close a b :=
  close_of_shared (fa.eq_of_shares sound.single fb) h

end Value
end LiveTemplate
