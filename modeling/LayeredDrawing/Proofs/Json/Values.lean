import LayeredDrawing.Json.Record
import LayeredDrawing.Proofs.Json.Texts
import Mathlib.Data.List.Induction
import Mathlib.Data.String.Basic

/-!
# Values that are read back

A value that a tree stands for is `Json.Value.Canonical`: it is nested no deeper than the tree
was allowed to be, the keys of its objects increase, and its integers have 64 bits. Such a value
is read back from its own tree (`Json.Value.ofTree?_tree`) if its double-precision numbers are
read back from their texts, which depends on the digits that are printed and on the way they are
gathered (`Double.ReadsBack`, `Single.ReadsBack`).
-/

namespace LayeredDrawing

open Json

namespace Json

/-! ## Sorted members -/

section Members

variable {β : Type}

/-- The keys of a list of members increase. -/
def KeysIncrease (members : List (String × β)) : Prop := members.Pairwise (·.1 < ·.1)

theorem mem_insertMember {key : String} {value : β} {members : List (String × β)}
    {m : String × β} (h : m ∈ insertMember key value members) :
    m = (key, value) ∨ m ∈ members := by
  fun_induction insertMember key value members with
  | case1 => simpa using h
  | case2 => simpa using h
  | case3 =>
    obtain rfl | hm := List.mem_cons.1 h
    · exact .inl rfl
    · exact .inr (List.mem_cons_of_mem _ hm)
  | case4 _ _ _ _ _ ih =>
    obtain rfl | hm := List.mem_cons.1 h
    · exact .inr List.mem_cons_self
    · exact (ih hm).imp_right (List.mem_cons_of_mem _)

theorem keysIncrease_insertMember (key : String) (value : β) {members : List (String × β)}
    (h : KeysIncrease members) : KeysIncrease (insertMember key value members) := by
  unfold KeysIncrease at h ⊢
  fun_induction insertMember key value members with
  | case1 => simp
  | case2 k v rest hlt =>
    refine List.pairwise_cons.2 ⟨fun m hm => ?_, h⟩
    obtain rfl | hm := List.mem_cons.1 hm
    · exact hlt
    · exact lt_trans hlt ((List.pairwise_cons.1 h).1 m hm)
  | case3 v rest _ =>
    exact List.pairwise_cons.2 ⟨(List.pairwise_cons.1 h).1, (List.pairwise_cons.1 h).2⟩
  | case4 k v rest hlt hne ih =>
    obtain ⟨hhead, htail⟩ := List.pairwise_cons.1 h
    refine List.pairwise_cons.2 ⟨fun m hm => ?_, ih htail⟩
    obtain rfl | hm := mem_insertMember hm
    · exact lt_of_le_of_ne (not_lt.1 hlt) (Ne.symm hne)
    · exact hhead m hm

/-- A member whose key comes after all the others goes to the end. -/
theorem insertMember_of_lt {key : String} {value : β} {members : List (String × β)}
    (h : ∀ m ∈ members, m.1 < key) :
    insertMember key value members = members ++ [(key, value)] := by
  induction members with
  | nil => rfl
  | cons m rest ih =>
    have hm : m.1 < key := h m List.mem_cons_self
    rw [insertMember, if_neg (lt_asymm hm), if_neg (ne_of_gt hm),
      ih fun n hn => h n (List.mem_cons_of_mem _ hn)]
    rfl

theorem sortMembers_concat (members : List (String × β)) (m : String × β) :
    sortMembers (members ++ [m]) = insertMember m.1 m.2 (sortMembers members) := by
  rw [sortMembers, List.foldl_append]
  rfl

theorem mem_of_mem_sortMembers {members : List (String × β)} {m : String × β}
    (h : m ∈ sortMembers members) : m ∈ members := by
  induction members using List.reverseRecOn with
  | nil => exact h
  | append_singleton members n ih =>
    rw [sortMembers_concat] at h
    obtain rfl | h := mem_insertMember h
    · simp
    · exact List.mem_append_left _ (ih h)

theorem keysIncrease_sortMembers (members : List (String × β)) :
    KeysIncrease (sortMembers members) := by
  induction members using List.reverseRecOn with
  | nil => exact List.Pairwise.nil
  | append_singleton members m ih =>
    rw [sortMembers_concat]
    exact keysIncrease_insertMember _ _ ih

/-- Members in order stay as they are. -/
theorem sortMembers_eq_self {members : List (String × β)} (h : KeysIncrease members) :
    sortMembers members = members := by
  induction members using List.reverseRecOn with
  | nil => rfl
  | append_singleton members m ih =>
    obtain ⟨hinit, -, hlast⟩ := List.pairwise_append.1 h
    rw [sortMembers_concat, ih hinit]
    exact insertMember_of_lt fun n hn => hlast n hn m (List.mem_singleton_self m)

/-! ### Members by name -/

/-- The values of the members with a name. -/
def membersNamed (name : String) (members : List (String × β)) : List β :=
  (members.filter (·.1 == name)).map (·.2)

theorem membersNamed_append (name : String) (as bs : List (String × β)) :
    membersNamed name (as ++ bs) = membersNamed name as ++ membersNamed name bs := by
  simp [membersNamed]

theorem membersNamed_eq_nil {name : String} {members : List (String × β)}
    (h : ∀ m ∈ members, m.1 ≠ name) : membersNamed name members = [] := by
  simp only [membersNamed, List.map_eq_nil_iff, List.filter_eq_nil_iff, beq_iff_eq]
  exact h

theorem membersNamed_cons (name : String) (m : String × β) (members : List (String × β)) :
    membersNamed name (m :: members) =
      (if m.1 = name then [m.2] else []) ++ membersNamed name members := by
  by_cases hm : m.1 = name <;> simp [membersNamed, hm]

theorem membersNamed_insertMember (name key : String) (value : β) {members : List (String × β)}
    (h : KeysIncrease members) :
    membersNamed name (insertMember key value members) =
      if key = name then [value] else membersNamed name members := by
  unfold KeysIncrease at h
  fun_induction insertMember key value members with
  | case1 => by_cases hname : key = name <;> simp [membersNamed, hname]
  | case2 k v rest hlt =>
    rw [membersNamed_cons]
    split
    · next hname =>
      -- All keys of the list are greater than the one that goes in front of it.
      rw [membersNamed_eq_nil, List.append_nil]
      intro m hm
      obtain rfl | hm := List.mem_cons.1 hm
      · exact hname ▸ ne_of_gt hlt
      · exact hname ▸ ne_of_gt (lt_trans hlt ((List.pairwise_cons.1 h).1 m hm))
    · rw [List.nil_append]
  | case3 v rest _ =>
    rw [membersNamed_cons, membersNamed_cons]
    split
    · next hname =>
      rw [membersNamed_eq_nil, List.append_nil]
      intro m hm
      exact hname ▸ ne_of_gt ((List.pairwise_cons.1 h).1 m hm)
    · rfl
  | case4 k v rest hlt hne ih =>
    rw [membersNamed_cons, membersNamed_cons, ih (List.pairwise_cons.1 h).2]
    split
    · next hkey =>
      have hname : ¬ key = name := fun hname => hne (hname.trans hkey.symm)
      rw [if_neg hname, if_neg hname]
    · rw [List.nil_append, List.nil_append]

/-- Of the members with one name the last is kept. -/
theorem membersNamed_sortMembers (name : String) (members : List (String × β)) :
    membersNamed name (sortMembers members) = (membersNamed name members).getLast?.toList := by
  induction members using List.reverseRecOn with
  | nil => rfl
  | append_singleton members m ih =>
    rw [sortMembers_concat, membersNamed_insertMember _ _ _ (keysIncrease_sortMembers members),
      membersNamed_append, ih]
    by_cases hm : m.1 = name <;> simp [membersNamed, hm]

end Members

/-! ## Numbers -/

/-- The numbers that a text can stand for. -/
def Number.IsRead : Number → Prop
  | natural n => n < Gathered.limit
  | negative n => n ≠ 0 ∧ n ≤ 0x8000000000000000
  | double _ => True
  | single _ => False

end Json

/-- A double-precision number is read back from its text as a value. -/
def Double.ReadsBack (x : Float) : Prop :=
  Value.parse? (Double.jsonText x) = some (.number (.double x))

/-- A single-precision number is read back from its text as a coordinate or a size. -/
def Single.ReadsBack (x : Float32) : Prop :=
  (Tree.parse? (Single.jsonText x)).bind Tree.single? = some x

/-- A floating-point number is read back from its text. Integers of 64 bits always are. -/
def Json.Number.ReadsBack : Number → Prop
  | .double x => Double.ReadsBack x
  | .single x => Single.ReadsBack x
  | .natural _ | .negative _ => True

namespace Json

namespace Number

theorem isRead_toNumber? {t : NumberText} {n : Number} (h : t.toNumber? = some n) :
    n.IsRead := by
  unfold NumberText.toNumber? at h
  dsimp only at h
  split at h
  · next hint =>
    split at h
    · obtain rfl := Option.some.inj h
      exact hint.2.2
    · split at h
      · next hnegative =>
        obtain rfl := Option.some.inj h
        exact hnegative
      · obtain rfl := Option.some.inj h
        trivial
  · obtain ⟨x, -, rfl⟩ := Option.map_eq_some_iff.1 h
    trivial

theorem parse?_text (n : Number) : Tree.parse? n.text = some n.tree := by
  have hparse := Value.parse?_pretty (.number n) 0 "" (by simp)
  simpa [Value.pretty, Value.tree] using hparse

theorem single?_tree {x : Float32} (h : Single.ReadsBack x) :
    (single x).tree.single? = some x := by
  have hparse : Tree.parse? (Single.jsonText x) = some (single x).tree := parse?_text (single x)
  rwa [Single.ReadsBack, hparse, Option.bind_some] at h

theorem ofTree?_double {x : Float} (h : Double.ReadsBack x) (depth : Nat) :
    Value.ofTree? depth (double x).tree = some (.number (double x)) := by
  have hparse : Tree.parse? (Double.jsonText x) = some (double x).tree := parse?_text (double x)
  rw [Double.ReadsBack, Value.parse?, hparse, Option.bind_some] at h
  unfold tree at h ⊢
  cases hwritten : (double x).written? with
  | none => simp [hwritten, Value.ofTree?] at h
  | some t => simpa [hwritten, Value.ofTree?] using h

theorem ofTree?_integer {n : Number} (h : n.written?.bind NumberText.toNumber? = some n)
    (depth : Nat) : Value.ofTree? depth n.tree = some (.number n) := by
  obtain ⟨t, ht, hn⟩ := Option.bind_eq_some_iff.1 h
  simp [tree, ht, Value.ofTree?, hn]

end Number

namespace Value

mutual

/-- The numbers of a value. -/
def numbers : Value → List Number
  | null => []
  | bool _ => []
  | number n => [n]
  | string _ => []
  | array items => itemNumbers items
  | object members => memberNumbers members

/-- The numbers of the items of an array. -/
def itemNumbers : List Value → List Number
  | [] => []
  | v :: vs => v.numbers ++ itemNumbers vs

/-- The numbers of the members of an object. -/
def memberNumbers : List (String × Value) → List Number
  | [] => []
  | (_, v) :: ms => v.numbers ++ memberNumbers ms

end

/-- The value of a text is a double-precision number. -/
def isDouble (x : Float) : Value → Bool
  | number (.double y) => decide (y = x)
  | _ => false

theorem isDouble_iff {x : Float} {v : Value} : v.isDouble x ↔ v = number (.double x) := by
  unfold isDouble
  split <;> simp_all

instance (x : Float) : Decidable (Double.ReadsBack x) :=
  decidable_of_iff ((parse? (Double.jsonText x)).any (isDouble x)) <| by
    cases hparse : parse? (Double.jsonText x) <;> simp [Double.ReadsBack, hparse, isDouble_iff]

instance (x : Float32) : Decidable (Single.ReadsBack x) :=
  inferInstanceAs (Decidable ((Tree.parse? (Single.jsonText x)).bind Tree.single? = some x))

instance : (n : Number) → Decidable n.ReadsBack
  | .double x => inferInstanceAs (Decidable (Double.ReadsBack x))
  | .single x => inferInstanceAs (Decidable (Single.ReadsBack x))
  | .natural _ => inferInstanceAs (Decidable True)
  | .negative _ => inferInstanceAs (Decidable True)

/-- All floating-point numbers of a value are read back from their texts. -/
def ReadsBack (v : Value) : Prop := ∀ n ∈ v.numbers, n.ReadsBack

instance (v : Value) : Decidable v.ReadsBack :=
  inferInstanceAs (Decidable (∀ n ∈ v.numbers, n.ReadsBack))

theorem mem_numbers_array {n : Number} {items : List Value} :
    n ∈ (array items).numbers ↔ ∃ v ∈ items, n ∈ v.numbers := by
  rw [numbers]
  induction items with
  | nil => simp [itemNumbers]
  | cons v vs ih => simp [itemNumbers, ih]

theorem mem_numbers_object {n : Number} {members : List (String × Value)} :
    n ∈ (object members).numbers ↔ ∃ m ∈ members, n ∈ m.2.numbers := by
  rw [numbers]
  induction members with
  | nil => simp [memberNumbers]
  | cons m ms ih => simp [memberNumbers, ih]

theorem ReadsBack.of_mem_items {v : Value} {items : List Value} (h : (array items).ReadsBack)
    (hv : v ∈ items) : v.ReadsBack :=
  fun n hn => h n (mem_numbers_array.2 ⟨v, hv, hn⟩)

theorem ReadsBack.of_mem_members {m : String × Value} {members : List (String × Value)}
    (h : (object members).ReadsBack) (hm : m ∈ members) : m.2.ReadsBack :=
  fun n hn => h n (mem_numbers_object.2 ⟨m, hm, hn⟩)

/-- The values of the trees within a depth. -/
inductive Canonical : Nat → Value → Prop
  | null {depth : Nat} : Canonical depth null
  | bool {depth : Nat} (b : Bool) : Canonical depth (bool b)
  | number {depth : Nat} {n : Number} : n.IsRead → Canonical depth (number n)
  | string {depth : Nat} (s : String) : Canonical depth (string s)
  | array {depth : Nat} {items : List Value} :
    (∀ v ∈ items, Canonical depth v) → Canonical (depth + 1) (array items)
  | object {depth : Nat} {members : List (String × Value)} : KeysIncrease members →
    (∀ m ∈ members, Canonical depth m.2) → Canonical (depth + 1) (object members)

mutual

/-- What a tree stands for is canonical. -/
theorem canonical_ofTree? {depth : Nat} {t : Tree} {v : Value} (h : ofTree? depth t = some v) :
    Canonical depth v := by
  match t with
  | .null => obtain rfl := Option.some.inj h; exact .null
  | .bool b => obtain rfl := Option.some.inj h; exact .bool b
  | .number n =>
    simp only [ofTree?, Option.map_eq_some_iff] at h
    obtain ⟨n, hn, rfl⟩ := h
    exact .number (Number.isRead_toNumber? hn)
  | .string s =>
    simp only [ofTree?, Option.map_eq_some_iff] at h
    obtain ⟨s, -, rfl⟩ := h
    exact .string s
  | .array items =>
    match depth with
    | 0 => simp [ofTree?] at h
    | depth + 1 =>
      simp only [ofTree?, Nat.succ_ne_zero, if_false, Option.map_eq_some_iff] at h
      obtain ⟨vs, hvs, rfl⟩ := h
      exact .array (canonical_ofItems? hvs)
  | .object members =>
    match depth with
    | 0 => simp [ofTree?] at h
    | depth + 1 =>
      simp only [ofTree?, Nat.succ_ne_zero, if_false, Option.map_eq_some_iff] at h
      obtain ⟨ms, hms, rfl⟩ := h
      exact .object (keysIncrease_sortMembers ms) fun m hm =>
        canonical_ofMembers? hms m (mem_of_mem_sortMembers hm)

/-- What the items of an array stand for is canonical. -/
theorem canonical_ofItems? {depth : Nat} {ts : List Tree} {vs : List Value}
    (h : ofItems? depth ts = some vs) : ∀ v ∈ vs, Canonical depth v := by
  match ts with
  | [] =>
    obtain rfl := Option.some.inj h
    simp
  | t :: ts =>
    simp only [ofItems?] at h
    split at h
    · next hv hvs =>
      obtain rfl := Option.some.inj h
      exact List.forall_mem_cons.2 ⟨canonical_ofTree? hv, canonical_ofItems? hvs⟩
    · simp at h

/-- What the members of an object stand for is canonical. -/
theorem canonical_ofMembers? {depth : Nat} {ts : List (StringText × Tree)}
    {ms : List (String × Value)} (h : ofMembers? depth ts = some ms) :
    ∀ m ∈ ms, Canonical depth m.2 := by
  match ts with
  | [] =>
    obtain rfl := Option.some.inj h
    simp
  | (key, t) :: ts =>
    simp only [ofMembers?] at h
    split at h
    · next hv hms =>
      obtain rfl := Option.some.inj h
      exact List.forall_mem_cons.2 ⟨canonical_ofTree? hv, canonical_ofMembers? hms⟩
    · simp at h

end

/-- The numbers of a canonical value are such as a text can stand for. -/
theorem Canonical.isRead {depth : Nat} {v : Value} (hv : Canonical depth v) {n : Number}
    (hn : n ∈ v.numbers) : n.IsRead := by
  induction hv with
  | null => simp [numbers] at hn
  | bool b => simp [numbers] at hn
  | number hread =>
    obtain rfl : n = _ := by simpa [numbers] using hn
    exact hread
  | string s => simp [numbers] at hn
  | array _ ih =>
    obtain ⟨v, hv, hn⟩ := mem_numbers_array.1 hn
    exact ih v hv hn
  | object _ _ ih =>
    obtain ⟨m, hm, hn⟩ := mem_numbers_object.1 hn
    exact ih m hm hn

/-! ## Reading back -/

theorem ofItems?_itemTrees {depth : Nat} {vs : List Value}
    (h : ∀ v ∈ vs, ofTree? depth v.tree = some v) :
    ofItems? depth (itemTrees vs) = some vs := by
  induction vs with
  | nil => rfl
  | cons v vs ih =>
    obtain ⟨hv, hvs⟩ := List.forall_mem_cons.1 h
    simp only [itemTrees, ofItems?, hv, ih hvs]

theorem ofMembers?_memberTrees {depth : Nat} {ms : List (String × Value)}
    (h : ∀ m ∈ ms, ofTree? depth m.2.tree = some m.2) :
    ofMembers? depth (memberTrees ms) = some ms := by
  induction ms with
  | nil => rfl
  | cons m ms ih =>
    obtain ⟨hm, hms⟩ := List.forall_mem_cons.1 h
    simp only [memberTrees, ofMembers?, StringText.decode_encode, hm, ih hms]

/-- A number that can be read is read back from its tree. -/
theorem ofTree?_number {n : Number} (hread : n.IsRead) (hback : n.ReadsBack) (depth : Nat) :
    ofTree? depth n.tree = some (.number n) := by
  cases n with
  | natural n => exact Number.ofTree?_integer (Number.toNumber?_written_natural hread) depth
  | negative n =>
    exact Number.ofTree?_integer (Number.toNumber?_written_negative hread.1 hread.2) depth
  | double x => exact Number.ofTree?_double hback depth
  | single x => exact hread.elim

/-- **A canonical value is read back from its tree**, if its double-precision numbers are read
back from their texts. -/
theorem ofTree?_tree {depth : Nat} {v : Value} (hv : Canonical depth v) (hback : v.ReadsBack) :
    ofTree? depth v.tree = some v := by
  induction hv with
  | null => rfl
  | bool b => rfl
  | number hread => exact ofTree?_number hread (hback _ (by simp [numbers])) _
  | string s => simp [tree, ofTree?]
  | array _ ih =>
    have hitems := ofItems?_itemTrees fun v hv => ih v hv (hback.of_mem_items hv)
    simp [tree, ofTree?, hitems]
  | object hkeys _ ih =>
    have hmembers := ofMembers?_memberTrees fun m hm => ih m hm (hback.of_mem_members hm)
    simp [tree, ofTree?, hmembers, sortMembers_eq_self hkeys]

end Value

end Json

end LayeredDrawing
