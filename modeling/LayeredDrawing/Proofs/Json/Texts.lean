import LayeredDrawing.Proofs.Json.Numbers
import LayeredDrawing.Proofs.Json.Strings

/-!
# The text of a value

The text of a value is well formed and has the tree of the value (`Json.Value.parse?_pretty`),
whatever the value is: a number that is not finite is written `null` and read as such. Reading
goes in the two steps of the reader:

* the text is cut into the tokens of the value (`Json.Value.cuts_pretty`);
* the tokens of a value, wherever they stand, are taken in as one finished tree
  (`Json.Value.run_tokens`).
-/

namespace LayeredDrawing.Json

/-! ## Trees and tokens of values -/

/-- The tree of the text of a number. -/
def Number.tree (n : Number) : Tree :=
  match n.written? with
  | some t => .number t
  | none => .null

/-- The token of the text of a number. -/
def Number.token (n : Number) : Token :=
  match n.written? with
  | some t => .number t
  | none => .null

namespace Value

mutual

/-- The tree of the text of a value. -/
def tree : Value → Tree
  | null => .null
  | bool b => .bool b
  | number n => n.tree
  | string s => .string (StringText.encode s)
  | array items => .array (itemTrees items)
  | object members => .object (memberTrees members)

/-- The trees of the items of an array. -/
def itemTrees : List Value → List Tree
  | [] => []
  | v :: vs => v.tree :: itemTrees vs

/-- The members of an object with their trees. -/
def memberTrees : List (String × Value) → List (StringText × Tree)
  | [] => []
  | (k, v) :: ms => (StringText.encode k, v.tree) :: memberTrees ms

end

theorem itemTrees_eq (vs : List Value) : itemTrees vs = vs.map tree := by
  induction vs with
  | nil => rfl
  | cons v vs ih => rw [itemTrees, ih, List.map_cons]

mutual

/-- The tokens of the text of a value. -/
def tokens : Value → List Token
  | null => [.null]
  | bool b => [.bool b]
  | number n => [n.token]
  | string s => [.string (StringText.encode s)]
  | array items => .beginArray :: itemTokens items ++ [.endArray]
  | object members => .beginObject :: memberTokens members ++ [.endObject]

/-- The tokens of the items of an array. -/
def itemTokens : List Value → List Token
  | [] => []
  | [v] => v.tokens
  | v :: vs => v.tokens ++ .comma :: itemTokens vs

/-- The tokens of the members of an object. -/
def memberTokens : List (String × Value) → List Token
  | [] => []
  | [(k, v)] => .string (StringText.encode k) :: .colon :: v.tokens
  | (k, v) :: ms =>
    .string (StringText.encode k) :: .colon :: v.tokens ++ .comma :: memberTokens ms

end

end Value

/-! ## Cutting a text into tokens -/

namespace Token

/-- A text is cut into tokens, whatever follows it. -/
def Splits (cs : List Char) (ts : List Token) : Prop :=
  ∀ done rest, scanOnto done (cs ++ rest) = scanOnto (ts.reverse ++ done) rest

/-- A text is cut into tokens if no number goes on behind it. -/
def Cuts (cs : List Char) (ts : List Token) : Prop :=
  ∀ done rest, EndsNumber rest → scanOnto done (cs ++ rest) = scanOnto (ts.reverse ++ done) rest

/-- A text behind which no number goes on, unless it is empty. -/
def Ends (cs : List Char) : Prop := ∀ rest, EndsNumber rest → EndsNumber (cs ++ rest)

theorem ends_cons {c : Char} (hc : isNumberPart c = false) (cs : List Char) :
    Ends (c :: cs) := by
  intro rest _ d hd
  obtain rfl : c = d := by simpa using hd
  exact hc

theorem Splits.cuts {cs : List Char} {ts : List Token} (h : Splits cs ts) : Cuts cs ts :=
  fun done rest _ => h done rest

theorem Splits.append {as bs : List Char} {ts us : List Token} (ha : Splits as ts)
    (hb : Splits bs us) : Splits (as ++ bs) (ts ++ us) := by
  intro done rest
  rw [List.append_assoc, ha, hb, List.reverse_append, List.append_assoc]

theorem Splits.append_cuts {as bs : List Char} {ts us : List Token} (ha : Splits as ts)
    (hb : Cuts bs us) : Cuts (as ++ bs) (ts ++ us) := by
  intro done rest hrest
  rw [List.append_assoc, ha, hb _ rest hrest, List.reverse_append, List.append_assoc]

theorem Cuts.append {as bs : List Char} {ts us : List Token} (ha : Cuts as ts)
    (hb : Cuts bs us) (hends : Ends bs) : Cuts (as ++ bs) (ts ++ us) := by
  intro done rest hrest
  rw [List.append_assoc, ha done (bs ++ rest) (hends rest hrest), hb _ rest hrest,
    List.reverse_append, List.append_assoc]

theorem scanOnto_cons {c : Char} {cs rest : List Char} {t : Token} (hc : isBlank c = false)
    (h : scanOne (c :: cs) = some (t, rest)) (done : List Token) :
    scanOnto done (c :: cs) = scanOnto (t :: done) rest := by
  rw [scanOnto, if_neg (by simp [hc])]
  split
  · next hnone => simp [h] at hnone
  · next hsome =>
    rw [h] at hsome
    simp only [Option.some.injEq, Prod.mk.injEq] at hsome
    rw [hsome.1, hsome.2]

/-- A token that does not depend on what follows it. -/
theorem splits_token {c : Char} {cs : List Char} {t : Token} (hc : isBlank c = false)
    (h : ∀ rest, scanOne (c :: (cs ++ rest)) = some (t, rest)) : Splits (c :: cs) [t] := by
  intro done rest
  rw [List.cons_append, scanOnto_cons hc (h rest)]
  rfl

theorem splits_blanks {cs : List Char} (h : ∀ c ∈ cs, isBlank c) : Splits cs [] := by
  intro done rest
  induction cs with
  | nil => rfl
  | cons c cs ih =>
    have hc : isBlank c := h c (by simp)
    rw [List.cons_append, scanOnto, if_pos hc]
    exact ih fun d hd => h d (by simp [hd])

theorem splits_quoted (s : String) :
    Splits (Value.quoted s).toList [.string (StringText.encode s)] := by
  have hscan := scanOne_quoted s
  simp only [Value.quoted, String.toList_ofList, List.cons_append] at hscan ⊢
  exact splits_token (by decide) hscan

/-- No number goes on with a blank. -/
theorem isNumberPart_of_isBlank {c : Char} (hc : isBlank c) : isNumberPart c = false := by
  obtain ((rfl | rfl) | rfl) | rfl : ((c = ' ' ∨ c = '\t') ∨ c = '\n') ∨ c = '\r' := by
    simpa [isBlank] using hc
  all_goals decide

theorem isBlank_of_isDigit {c : Char} (hc : c.isDigit) : isBlank c = false := by
  cases hblank : isBlank c with
  | false => rfl
  | true =>
    have hpart := isNumberPart_of_isBlank hblank
    simp [isNumberPart, hc] at hpart

/-- A number does not begin with a blank. -/
theorem chars_eq_cons {t : NumberText} (ht : t.WellFormed) :
    ∃ c cs, t.chars = c :: cs ∧ isBlank c = false := by
  obtain ⟨d, ds, hds⟩ := List.exists_cons_of_ne_nil ht.whole.nonempty
  have hd := isBlank_of_isDigit (ht.whole.digits d (by simp [hds]))
  cases hneg : t.negative with
  | true => exact ⟨'-', t.unsigned, by simp [NumberText.chars, hneg], by decide⟩
  | false =>
    refine ⟨d, ds ++ (NumberText.fractionChars t.fraction ++
      NumberText.exponentChars t.exponent), ?_, hd⟩
    simp [NumberText.chars, NumberText.unsigned, hneg, hds]

/-- The text of a number is one token, if no other number goes on behind it. -/
theorem cuts_number (n : Number) : Cuts n.text.toList [n.token] := by
  unfold Number.token
  rw [Number.toList_text]
  cases hwritten : n.written? with
  | none => exact (splits_token (by decide) fun _ => rfl).cuts
  | some t =>
    have ht := Number.wellFormed_written hwritten
    obtain ⟨c, cs, hcs, hc⟩ := chars_eq_cons ht
    intro done rest hrest
    have hscan := scanOne_chars ht hrest
    simp only [Option.map_some, Option.getD_some]
    rw [hcs, List.cons_append] at hscan ⊢
    rw [scanOnto_cons hc hscan]
    rfl

end Token

namespace Value

open Token

theorem splits_newLine (depth : Nat) : Splits (newLine depth).toList [] := by
  apply splits_blanks
  intro c hc
  rw [newLine, String.toList_ofList] at hc
  obtain rfl | hc := List.mem_cons.1 hc
  · rfl
  · rw [(List.mem_replicate.1 hc).2]; rfl

theorem ends_newLine (depth : Nat) (cs : List Char) : Ends ((newLine depth).toList ++ cs) := by
  rw [newLine, String.toList_ofList]
  exact ends_cons (by decide) _

/-- The lines of a container between its brackets. -/
theorem cuts_block {a b : Char} {t u : Token} {cs : List Char} {ts : List Token}
    (hopen : Splits [a] [t]) (hclose : Splits [b] [u]) (hbody : Cuts cs ts) (depth : Nat) :
    Cuts (a :: (cs ++ ((newLine depth).toList ++ [b]))) (t :: (ts ++ [u])) := by
  have hlast := (splits_newLine depth).append hclose
  exact hopen.append_cuts (hbody.append hlast.cuts (ends_newLine depth _))

/-- The line of an item. -/
theorem cuts_item {v : Value} {depth : Nat} (hv : Cuts (v.pretty depth).toList v.tokens) :
    Cuts ((newLine depth).toList ++ (v.pretty depth).toList) v.tokens :=
  (splits_newLine depth).append_cuts hv

/-- The line of a member. -/
theorem cuts_member {v : Value} {depth : Nat} (k : String)
    (hv : Cuts (v.pretty depth).toList v.tokens) :
    Cuts ((newLine depth).toList ++ ((quoted k).toList ++ ([':', ' '] ++ (v.pretty depth).toList)))
      (.string (StringText.encode k) :: .colon :: v.tokens) := by
  have hcolon : Splits [':'] [.colon] := splits_token (by decide) fun _ => rfl
  have hblank : Splits [' '] [] := splits_blanks (by simp [isBlank])
  exact (splits_newLine depth).append_cuts
    ((splits_quoted k).append_cuts ((hcolon.append hblank).append_cuts hv))

-- The induction follows the writer: a value, and the items or members that are left to write.
mutual

/-- The text of a value is cut into its tokens. -/
theorem cuts_pretty (v : Value) (depth : Nat) : Cuts (v.pretty depth).toList v.tokens := by
  match v with
  | null =>
    simp only [pretty, tokens]
    exact (splits_token (by decide) fun _ => rfl).cuts
  | bool true =>
    simp only [pretty, tokens, if_true]
    exact (splits_token (by decide) fun _ => rfl).cuts
  | bool false =>
    simp only [pretty, tokens, Bool.false_eq_true, if_false]
    exact (splits_token (by decide) fun _ => rfl).cuts
  | number n =>
    simp only [pretty, tokens]
    exact cuts_number n
  | string s =>
    simp only [pretty, tokens]
    exact (splits_quoted s).cuts
  | array items =>
    have hopen : Splits ['['] [.beginArray] := splits_token (by decide) fun _ => rfl
    have hclose : Splits [']'] [.endArray] := splits_token (by decide) fun _ => rfl
    match items with
    | [] =>
      simp only [pretty, tokens, itemTokens]
      exact (hopen.append hclose).cuts
    | item :: items =>
      have hblock := cuts_block hopen hclose (cuts_prettyItems (item :: items) (depth + 1)) depth
      simpa [pretty, tokens] using hblock
  | object members =>
    have hopen : Splits ['\x7b'] [.beginObject] := splits_token (by decide) fun _ => rfl
    have hclose : Splits ['\x7d'] [.endObject] := splits_token (by decide) fun _ => rfl
    match members with
    | [] =>
      simp only [pretty, tokens, memberTokens]
      exact (hopen.append hclose).cuts
    | member :: members =>
      have hblock :=
        cuts_block hopen hclose (cuts_prettyMembers (member :: members) (depth + 1)) depth
      simpa [pretty, tokens] using hblock

/-- The items of an array are cut into their tokens. -/
theorem cuts_prettyItems (vs : List Value) (depth : Nat) :
    Cuts (prettyItems depth vs).toList (itemTokens vs) := by
  match vs with
  | [] => exact (splits_blanks (by simp [prettyItems])).cuts
  | [v] => simpa [prettyItems, itemTokens] using cuts_item (cuts_pretty v depth)
  | v :: w :: vs =>
    have hcomma : Splits [','] [.comma] := splits_token (by decide) fun _ => rfl
    have hrest := hcomma.append_cuts (cuts_prettyItems (w :: vs) depth)
    have hline := (cuts_item (cuts_pretty v depth)).append hrest (ends_cons (by decide) _)
    simpa [prettyItems, itemTokens] using hline

/-- The members of an object are cut into their tokens. -/
theorem cuts_prettyMembers (ms : List (String × Value)) (depth : Nat) :
    Cuts (prettyMembers depth ms).toList (memberTokens ms) := by
  match ms with
  | [] => exact (splits_blanks (by simp [prettyMembers])).cuts
  | [(k, v)] => simpa [prettyMembers, memberTokens] using cuts_member k (cuts_pretty v depth)
  | (k, v) :: m :: ms =>
    have hcomma : Splits [','] [.comma] := splits_token (by decide) fun _ => rfl
    have hrest := hcomma.append_cuts (cuts_prettyMembers (m :: ms) depth)
    have hline := (cuts_member k (cuts_pretty v depth)).append hrest (ends_cons (by decide) _)
    simpa [prettyMembers, memberTokens] using hline

end

/-! ## Taking the tokens in -/

/-- The tokens of a value do not begin with the end of an array. -/
theorem tokens_eq_cons (v : Value) : ∃ t ts, v.tokens = t :: ts ∧ t ≠ .endArray := by
  cases v with
  | number n => exact ⟨n.token, [], by simp [tokens], by unfold Number.token; split <;> simp⟩
  | _ => exact ⟨_, _, by simp only [tokens]; rfl, by simp⟩

/-- The first item of an array is read like any other. -/
theorem run_firstItem (v : Value) (open_ : List Frame) (ts : List Token) :
    Progress.run (.firstItem open_) (v.tokens ++ ts) =
      Progress.run (.value (.array [] :: open_)) (v.tokens ++ ts) := by
  obtain ⟨t, us, htokens, _⟩ := tokens_eq_cons v
  simp [htokens, Progress.run, Progress.advance]

theorem itemTokens_cons (v : Value) (vs : List Value) :
    ∃ us, itemTokens (v :: vs) = v.tokens ++ us := by
  cases vs with
  | nil => exact ⟨[], by simp [itemTokens]⟩
  | cons w vs => exact ⟨_, by simp only [itemTokens]; rfl⟩

theorem memberTokens_cons (m : String × Value) (ms : List (String × Value)) :
    ∃ us, memberTokens (m :: ms) = .string (StringText.encode m.1) :: us := by
  cases ms with
  | nil => exact ⟨_, by simp only [memberTokens]; rfl⟩
  | cons n ms => exact ⟨_, by simp only [memberTokens, List.cons_append]; rfl⟩

-- The container that a value stands in waits on the stack; what is read of it so far is carried
-- along, newest first.
mutual

/-- The tokens of a value are taken in as its tree. -/
theorem run_tokens (v : Value) (open_ : List Frame) (ts : List Token) :
    Progress.run (.value open_) (v.tokens ++ ts) = Progress.run (.finished v.tree open_) ts := by
  match v with
  | null => rfl
  | bool b => rfl
  | number n =>
    cases hwritten : n.written? <;>
      simp [tokens, tree, Number.token, Number.tree, hwritten, Progress.run, Progress.advance,
        Progress.beginValue]
  | string s => rfl
  | array [] => rfl
  | array (item :: items) =>
    obtain ⟨us, hus⟩ := itemTokens_cons item items
    have hitems := run_itemTokens (item :: items) (by simp) [] open_ ts
    rw [hus, List.append_assoc, ← run_firstItem, ← List.append_assoc, ← hus] at hitems
    simpa [tokens, tree, Progress.run, Progress.advance, Progress.beginValue] using hitems
  | object [] => rfl
  | object (member :: members) =>
    obtain ⟨us, hus⟩ := memberTokens_cons member members
    have hmembers := run_memberTokens (member :: members) (by simp) [] open_ ts
    rw [hus] at hmembers
    simpa [tokens, tree, hus, Progress.run, Progress.advance, Progress.beginValue] using hmembers

/-- The tokens of the items that are left are taken in as the rest of the array. -/
theorem run_itemTokens (vs : List Value) (hvs : vs ≠ []) (done : List Tree)
    (open_ : List Frame) (ts : List Token) :
    Progress.run (.value (.array done :: open_)) (itemTokens vs ++ .endArray :: ts) =
      Progress.run (.finished (.array (done.reverse ++ itemTrees vs)) open_) ts := by
  match vs with
  | [v] =>
    rw [itemTokens, run_tokens v]
    simp [Progress.run, Progress.advance, itemTrees]
  | v :: w :: vs =>
    have hrest := run_itemTokens (w :: vs) (by simp) (v.tree :: done) open_ ts
    simp only [itemTokens, List.append_assoc, List.cons_append]
    rw [run_tokens v]
    simpa [Progress.run, Progress.advance, itemTrees] using hrest

/-- The tokens of the members that are left are taken in as the rest of the object. -/
theorem run_memberTokens (ms : List (String × Value)) (hms : ms ≠ [])
    (done : List (StringText × Tree)) (open_ : List Frame) (ts : List Token) :
    Progress.run (.key done open_) (memberTokens ms ++ .endObject :: ts) =
      Progress.run (.finished (.object (done.reverse ++ memberTrees ms)) open_) ts := by
  match ms with
  | [(k, v)] =>
    have hvalue := run_tokens v (.object done (StringText.encode k) :: open_) (.endObject :: ts)
    simp only [memberTokens, List.cons_append, Progress.run, Progress.advance]
    rw [hvalue]
    simp [Progress.run, Progress.advance, memberTrees]
  | (k, v) :: n :: ms =>
    have hrest := run_memberTokens (n :: ms) (by simp) ((StringText.encode k, v.tree) :: done)
      open_ ts
    have hvalue := run_tokens v (.object done (StringText.encode k) :: open_)
      (.comma :: (memberTokens (n :: ms) ++ .endObject :: ts))
    simp only [memberTokens, List.cons_append, List.append_assoc, Progress.run, Progress.advance]
    rw [hvalue]
    simpa [Progress.run, Progress.advance, memberTrees] using hrest

end

/-! ## Reading the text -/

/-- The text of a value, with blanks behind it, has the tokens of the value. -/
theorem scan_pretty (v : Value) (depth : Nat) (tail : String)
    (htail : ∀ c ∈ tail.toList, isBlank c) :
    Token.scan (v.pretty depth ++ tail) = some v.tokens := by
  have hends : EndsNumber tail.toList :=
    fun c hc => isNumberPart_of_isBlank (htail c (List.mem_of_mem_head? hc))
  have hscan := cuts_pretty v depth [] tail.toList hends
  have hrest := splits_blanks htail v.tokens.reverse []
  rw [Token.scan, String.toList_append, hscan, List.append_nil]
  rw [List.append_nil] at hrest
  rw [hrest]
  simp [scanOnto]

/-- **The text of a value is well formed, and its tree is that of the value.** -/
theorem parse?_pretty (v : Value) (depth : Nat) (tail : String)
    (htail : ∀ c ∈ tail.toList, isBlank c) :
    Tree.parse? (v.pretty depth ++ tail) = some v.tree := by
  have hrun := run_tokens v [] []
  rw [List.append_nil] at hrun
  rw [Tree.parse?, scan_pretty v depth tail htail, Option.bind_some, Tree.ofTokens?, hrun]
  rfl

end Value

end LayeredDrawing.Json
