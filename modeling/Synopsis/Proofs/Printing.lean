import Synopsis.Proofs.Registration
import Synopsis.Proofs.Separation

/-!
# Printing a tree as a usage pattern

A tree can be written out: groups in their brackets, alternatives between bars, repetitions with an ellipsis,
options with their value. `Tree.print` sets the tokens apart by blanks. `Tree.WellFormed` lists what a tree has
to be like for that to make sense.

Main statements: each leaf is written as a token of its own kind (`Leaf.Writable.tokenKind`), and what is
printed is cut into the tokens that were written (`WellFormed.tokenize_print`).
-/

namespace Synopsis

/-! ## Printing -/

/-- The token that a leaf is written as. -/
def Leaf.written : Leaf → String
  | argument name _ => name.getD ""
  | command name _ => name
  | option o =>
    match o.value with
    | .str v => o.name ++ "=" ++ v
    | _ => o.name
  | anyOptions => "options"

namespace Pattern

variable {α : Type} (f : α → String)

mutual

/-- The tokens of a pattern, with `f` for its leaves. -/
def written : Pattern α → List String
  | leaf a => [f a]
  | required ps => "(" :: (writtenAll ps ++ [")"])
  | optional ps => "[" :: (writtenAll ps ++ ["]"])
  | either ps => writtenChoice ps
  | oneOrMore p => p.written ++ ["..."]

/-- The tokens of several patterns, one pattern after the other. -/
def writtenAll : List (Pattern α) → List String
  | [] => []
  | p :: ps => p.written ++ writtenAll ps

/-- The tokens of several patterns with bars between them. -/
def writtenChoice : List (Pattern α) → List String
  | [] => []
  | [p] => p.written
  | p :: q :: ps => p.written ++ "|" :: writtenChoice (q :: ps)

end

end Pattern

namespace Tree

/-- The token of the leaf in a slot. -/
def tokenAt (t : Tree) (i : Nat) : String := (t.leafAt i).written

/-- The tokens of a tree. Its root is a group without brackets of its own. -/
def written (t : Tree) : List String := Pattern.writtenAll t.tokenAt t.root.children

/-- A tree as a usage pattern. -/
def print (t : Tree) : String := " ".intercalate t.written

end Tree

/-! ## Well-formed trees -/

/-- **`l.Writable r`**: a leaf that is written as a token of its own kind. -/
inductive Leaf.Writable (r : Registry) : Leaf → Prop
  /-- The name of a place holder is that of an argument and does not start with a dash. -/
  | placeholder {name : String} (hclean : Token.Clean name.toList)
      (hargument : isArgumentName name.toList = true) (hdash : name.toList.head? ≠ some '-') :
      Writable r (.placeholder name)
  /-- The name of a command is not that of an argument; it starts with a dash only if it is one dash or
  two. -/
  | keyword {name : String} (hclean : Token.Clean name.toList)
      (hargument : isArgumentName name.toList = false) (hoptions : name ≠ "options")
      (hdash : name.toList.head? = some '-' → name = "-" ∨ name = "--") :
      Writable r (.keyword name)
  /-- A flag with a long name is given. -/
  | flag {o : Opt} {long : String} (ho : o ∈ r) (hlong : o.long = some long)
      (hclean : Token.Clean long.toList) (hequal : '=' ∉ long.toList) (harity : o.arity = 0) :
      Writable r (.option (o.given (.bool true)))
  /-- An option with a long name has a value that is not empty. -/
  | valued {o : Opt} {long v : String} (ho : o ∈ r) (hlong : o.long = some long)
      (hclean : Token.Clean long.toList) (hequal : '=' ∉ long.toList) (harity : o.arity = 1)
      (hvalue : Token.Clean v.toList) (hne : v ≠ "") :
      Writable r (.option (o.given (.str v)))

namespace Tree

/-- **`t.Item r node`**: a part of the tree that may stand in a sequence or as an alternative. -/
inductive Item (r : Registry) (t : Tree) : Pattern Nat → Prop
  | leaf {i : Nat} {l : Leaf} (hi : t.slots[i]? = some l) (hl : l.Writable r) : Item r t (.leaf i)
  /-- The shorthand for options stands alone in square brackets. -/
  | shorthand {i : Nat} (hi : t.slots[i]? = some .anyOptions) : Item r t (.optional [.leaf i])
  /-- A group of items one after the other. -/
  | sequence (b : Bracket) {ps : List (Pattern Nat)} (h : ∀ p ∈ ps, Item r t p) :
      Item r t (b.group ps)
  /-- A group that holds a choice and nothing else. -/
  | choice (b : Bracket) {ps : List (Pattern Nat)} (hlength : 2 ≤ ps.length)
      (h : ∀ p ∈ ps, Item r t p) : Item r t (b.group [.either ps])
  /-- What is repeated is not a repetition itself. -/
  | repeated {p : Pattern Nat} (hp : ∀ q, p ≠ .oneOrMore q) (h : Item r t p) :
      Item r t (.oneOrMore p)

/-- **`t.WellFormed r`**: the tree is a required group of items, and its places are numbered from left to
right, a slot for each. -/
structure WellFormed (r : Registry) (t : Tree) : Prop where
  required : ∃ ps, t.root = .required ps
  item : t.Item r t.root
  numbered : t.root.flat = List.range t.slots.length

end Tree

/-- **`r.WellNamed`**: no two entries have a name in common, and each long name is two dashes and more. -/
structure Registry.WellNamed (r : Registry) : Prop where
  distinct : r.Distinct
  dashes : ∀ o ∈ r, ∀ long, o.long = some long → ∃ name, name ≠ "" ∧ long = "--" ++ name

/-! ## Tokens of leaves -/

theorem TokenKind.of_clean {token : String} (h : Token.Clean token.toList) :
    TokenKind.of token =
      match WordKind.of token with
      | .separator => .command
      | .long => .long
      | .cluster => .cluster
      | .plain => if isArgumentName token.toList then .argument else .command :=
  TokenKind.of_word h.not_isBracket h.ne_bar

namespace Leaf

theorem written_flag {o : Opt} {long : String} (hlong : o.long = some long) :
    (Leaf.option (o.given (.bool true))).written = long := by
  simp [written, Opt.given, Opt.name, hlong]

theorem written_valued {o : Opt} {long : String} (hlong : o.long = some long) (v : String) :
    (Leaf.option (o.given (.str v))).written = long ++ "=" ++ v := by
  simp [written, Opt.given, Opt.name, hlong]

/-- The token of a leaf is clean. -/
theorem Writable.clean {r : Registry} {l : Leaf} (h : l.Writable r) :
    Token.Clean l.written.toList := by
  cases h with
  | placeholder hclean => exact hclean
  | keyword hclean => exact hclean
  | flag ho hlong hclean =>
    rw [written_flag hlong]
    exact hclean
  | @valued o long v ho hlong hclean hequal harity hvalue hne =>
    have htoken : (long ++ "=" ++ v).toList = long.toList ++ '=' :: v.toList := by
      simp [String.toList_append]
    rw [written_valued hlong, htoken]
    exact hclean.append_equal hvalue

/-- A token that starts like the long name of an entry is read as a long option. -/
theorem tokenKind_long {r : Registry} (hr : r.WellNamed) {o : Opt} {long : String} (ho : o ∈ r)
    (hlong : o.long = some long) {token : String} (hclean : Token.Clean token.toList)
    (hstart : long.toList <+: token.toList) : TokenKind.of token = .long := by
  obtain ⟨name, hname, rfl⟩ := hr.dashes o ho long hlong
  have hshape : WordKind.long.Shape token := by
    have hdashes : ("--" ++ name).toList = ['-', '-'] ++ name.toList := String.toList_append
    rw [hdashes] at hstart
    refine ⟨(List.prefix_append _ _).trans hstart, ?_⟩
    rintro rfl
    have hlength := hstart.length_le
    have hpos : 0 < name.toList.length := by
      rw [List.length_pos_iff]
      exact fun hnil => hname (String.toList_inj.mp hnil)
    have htwo : "--".toList.length = 2 := rfl
    simp only [List.length_append, List.length_cons, List.length_nil] at hlength
    omega
  rw [TokenKind.of_clean hclean, WordKind.of_eq_of_shape hshape]

/-- The kind of the token of a leaf. -/
theorem Writable.tokenKind {r : Registry} (hr : r.WellNamed) {l : Leaf} (h : l.Writable r) :
    TokenKind.of l.written =
      match l with
      | argument _ _ => .argument
      | option _ => .long
      | _ => .command := by
  have hclean := h.clean
  cases h with
  | @placeholder name hname hargument hdash =>
    show TokenKind.of name = .argument
    rw [TokenKind.of_clean hname, WordKind.of_eq_of_shape (k := .plain) (Or.inr hdash)]
    exact if_pos hargument
  | @keyword name hname hargument hoptions hdash =>
    show TokenKind.of name = .command
    rw [TokenKind.of_clean hname]
    by_cases hhead : name.toList.head? = some '-'
    · rcases hdash hhead with rfl | rfl
      · exact if_neg (by decide)
      · rfl
    · rw [WordKind.of_eq_of_shape (k := .plain) (Or.inr hhead)]
      exact if_neg (by rw [hargument]; decide)
  | flag ho hlong _ =>
    refine tokenKind_long hr ho hlong hclean ?_
    rw [written_flag hlong]
  | valued ho hlong _ =>
    refine tokenKind_long hr ho hlong hclean ?_
    rw [written_valued hlong, String.toList_append, String.toList_append, List.append_assoc]
    exact List.prefix_append _ _

theorem Writable.written_ne_options {r : Registry} (hr : r.WellNamed) {l : Leaf}
    (h : l.Writable r) : l.written ≠ "options" := by
  intro hoptions
  have hkind := h.tokenKind hr
  rw [hoptions] at hkind
  cases h with
  | placeholder => cases hkind
  | keyword _ _ hne => exact hne hoptions
  | flag => cases hkind
  | valued => cases hkind

end Leaf

namespace Tree

variable {r : Registry} {t : Tree}

/-! ## The text is cut into the tokens -/

theorem tokenAt_of_slot {i : Nat} {l : Leaf} (hi : t.slots[i]? = some l) :
    t.tokenAt i = l.written := by
  rw [tokenAt, leafAt, List.getD_eq_getElem?_getD, hi]
  rfl

theorem written_group (f : Nat → String) (b : Bracket) (ps : List (Pattern Nat)) :
    (b.group ps).written f = b.opening :: (Pattern.writtenAll f ps ++ [b.closing]) := by
  cases b <;> rfl

theorem mem_writtenAll {f : Nat → String} {ps : List (Pattern Nat)} {token : String}
    (h : token ∈ Pattern.writtenAll f ps) : ∃ p ∈ ps, token ∈ p.written f := by
  induction ps with
  | nil => cases h
  | cons p ps ih =>
    rw [Pattern.writtenAll] at h
    rcases List.mem_append.mp h with h | h
    · exact ⟨p, List.mem_cons_self, h⟩
    · obtain ⟨q, hq, htoken⟩ := ih h
      exact ⟨q, List.mem_cons_of_mem p hq, htoken⟩

theorem mem_writtenChoice {f : Nat → String} {ps : List (Pattern Nat)} {token : String}
    (h : token ∈ Pattern.writtenChoice f ps) : token = "|" ∨ ∃ p ∈ ps, token ∈ p.written f := by
  match ps with
  | [] => cases h
  | [p] => exact Or.inr ⟨p, List.mem_cons_self, h⟩
  | p :: q :: ps =>
    rw [Pattern.writtenChoice] at h
    rcases List.mem_append.mp h with h | h
    · exact Or.inr ⟨p, List.mem_cons_self, h⟩
    · rcases List.mem_cons.mp h with h | h
      · exact Or.inl h
      · rcases mem_writtenChoice h with h | ⟨a, ha, htoken⟩
        · exact Or.inl h
        · exact Or.inr ⟨a, List.mem_cons_of_mem p ha, htoken⟩

/-- The brackets around tokens are tokens. -/
theorem isToken_group {f : Nat → String} {ps : List (Pattern Nat)}
    (h : ∀ token ∈ Pattern.writtenAll f ps, Token.IsToken token.toList) (b : Bracket) :
    ∀ token ∈ (b.group ps).written f, Token.IsToken token.toList := by
  intro token htoken
  rw [written_group] at htoken
  rcases List.mem_cons.mp htoken with rfl | htoken
  · cases b <;> exact .delimiter (by decide)
  · rcases List.mem_append.mp htoken with htoken | htoken
    · exact h token htoken
    · rw [List.mem_singleton.mp htoken]
      cases b <;> exact .delimiter (by decide)

/-- All that an item is written as are tokens, if no command lacks a name. -/
theorem Item.isToken (hr : r.WellNamed) (hnames : .keyword "" ∉ t.slots) {p : Pattern Nat}
    (h : t.Item r p) : ∀ token ∈ p.written t.tokenAt, Token.IsToken token.toList := by
  induction h with
  | @leaf i l hi hl =>
    intro token htoken
    rw [Pattern.written, tokenAt_of_slot hi] at htoken
    rw [List.mem_singleton.mp htoken]
    refine .word ?_ hl.clean
    intro hnil
    have hkind := hl.tokenKind hr
    have hempty : l.written = "" := String.toList_inj.mp hnil
    rw [hempty] at hkind
    -- only a command is written as a token of that kind
    cases hl with
    | placeholder => cases hkind
    | keyword =>
      obtain rfl : _ = "" := hempty
      exact hnames (List.mem_of_getElem? hi)
    | flag => cases hkind
    | valued => cases hkind
  | @shorthand i hi =>
    refine isToken_group (b := .square) ?_
    intro token htoken
    obtain rfl : token = t.tokenAt i := by
      simpa [Pattern.writtenAll, Pattern.written] using htoken
    rw [tokenAt_of_slot hi]
    exact .word (by decide) (by decide)
  | sequence b _ ih =>
    refine isToken_group ?_ b
    intro token htoken
    obtain ⟨p, hp, htoken⟩ := mem_writtenAll htoken
    exact ih p hp token htoken
  | choice b _ _ ih =>
    refine isToken_group ?_ b
    intro token htoken
    rw [Pattern.writtenAll, Pattern.writtenAll, List.append_nil] at htoken
    rcases mem_writtenChoice htoken with rfl | ⟨p, hp, htoken⟩
    · exact .delimiter (by decide)
    · exact ih p hp token htoken
  | repeated _ _ ih =>
    intro token htoken
    rw [Pattern.written] at htoken
    rcases List.mem_append.mp htoken with htoken | htoken
    · exact ih token htoken
    · rw [List.mem_singleton.mp htoken]
      exact .ellipsis

/-- What is printed is cut into the tokens that were written. -/
theorem WellFormed.tokenize_print (hr : r.WellNamed) (ht : t.WellFormed r)
    (hnames : .keyword "" ∉ t.slots) : tokenize t.print = t.written := by
  apply tokenize_intercalate
  intro token htoken
  apply ht.item.isToken hr hnames
  obtain ⟨ps, hroot⟩ := ht.required
  rw [written, hroot] at htoken
  rw [hroot]
  exact List.mem_cons_of_mem _ (List.mem_append_left _ htoken)

end Tree

end Synopsis
