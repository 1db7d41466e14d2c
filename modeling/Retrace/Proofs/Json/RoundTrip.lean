import Retrace.Json.Tree
import Retrace.Proofs.Json.Spelling

/-!
# A printed value is read back

The text of a value is split into the lexemes of the value (`splits_chars`), in either layout, and
the tree of these lexemes is the tree of the value (`build_lexemesOf`). So the tree of the text is
the tree of the value (`parse_render`).

Both steps go along the value with an arbitrary text or stack behind it. What comes behind a value
matters to the lexer only where the value ends in a number; this is what `EndsNumber` is for. To the
machine that builds the tree it does not matter at all.
-/

namespace Retrace.Json

/-- All numbers of a value are integers. -/
inductive Integral : Json → Prop
  | null : Integral .null
  | bool (value : Bool) : Integral (.bool value)
  | integer (value : Int) : Integral (.number (.integer value))
  | string (value : String) : Integral (.string value)
  | array {items : List Json} (h : ∀ v ∈ items, Integral v) : Integral (.array items)
  | object {members : Members} (h : ∀ m ∈ members, Integral m.2) : Integral (.object members)

/-! ## Lexemes -/

/-- The lexeme of a number. -/
def numberLiteral : JsonNumber → NumberLiteral
  | .integer value => .ofInt value
  | .decimal spelling => ⟨spelling, none⟩

mutual

/-- The lexemes of a value. -/
def lexemesOf : Json → List Lexeme
  | .null => [.null]
  | .bool value => [.bool value]
  | .number value => [.number (numberLiteral value)]
  | .string value => [.string (some value)]
  | .array [] => [.openBracket, .closeBracket]
  | .array (item :: rest) =>
    .openBracket :: (lexemesOf item ++ itemLexemes rest ++ [.closeBracket])
  | .object [] => [.openBrace, .closeBrace]
  | .object ((key, value) :: rest) =>
    .openBrace :: .string (some key) :: .colon ::
      (lexemesOf value ++ memberLexemes rest ++ [.closeBrace])

/-- The lexemes of the items behind the first one. -/
def itemLexemes : List Json → List Lexeme
  | [] => []
  | item :: rest => .comma :: (lexemesOf item ++ itemLexemes rest)

/-- The lexemes of the members behind the first one. -/
def memberLexemes : List (String × Json) → List Lexeme
  | [] => []
  | (key, value) :: rest =>
    .comma :: .string (some key) :: .colon :: (lexemesOf value ++ memberLexemes rest)

end

/-- In front of `rest`, the text is split into the lexemes. -/
def Splits (cs : List Char) (ts : List Lexeme) (rest : List Char) : Prop :=
  lexemes (cs ++ rest) = (lexemes rest).map (ts ++ ·)

section Splits

variable {cs cs' rest : List Char} {ts ts' : List Lexeme} {t : Lexeme} {c : Char}

/-- No text has no lexemes. -/
theorem Splits.nil : Splits [] [] rest := by
  simp [Splits]

/-- Two texts that split one in front of the other split together. -/
theorem Splits.append (h : Splits cs ts (cs' ++ rest)) (h' : Splits cs' ts' rest) :
    Splits (cs ++ cs') (ts ++ ts') rest := by
  unfold Splits at h h' ⊢
  rw [List.append_assoc, h, h', Option.map_map]
  congr 1
  funext later
  exact (List.append_assoc ts ts' later).symm

/-- What is split behind a lexeme. -/
theorem Splits.behind (h : Splits cs [t] (cs' ++ rest)) (h' : Splits cs' ts rest) :
    Splits (cs ++ cs') (t :: ts) rest :=
  h.append h'

/-- A space in front adds no lexeme. -/
theorem Splits.blank (hspace : isSpace c = true) (h : Splits cs ts rest) :
    Splits (c :: cs) ts rest := by
  unfold Splits at h ⊢
  rw [List.cons_append, lexemes, if_pos hspace, h]

/-- A text that is scanned as one lexeme splits into this one. -/
theorem splits_of_scan (hspace : isSpace c = false) (h : scan (c :: (cs ++ rest)) = some (t, rest)) :
    Splits (c :: cs) [t] rest := by
  unfold Splits
  rw [List.cons_append, lexemes, if_neg (by simp [hspace])]
  split
  · next hnone => rw [h] at hnone; cases hnone
  · next hsome =>
    cases h.symm.trans hsome
    rfl

/-- A lexeme in front of a text that is split. -/
theorem Splits.cons (hspace : isSpace c = false)
    (hscan : ∀ later, scan (c :: later) = some (t, later)) (h : Splits cs ts rest) :
    Splits (c :: cs) (t :: ts) rest := by
  have hfirst : Splits [c] [t] (cs ++ rest) := splits_of_scan hspace (hscan _)
  exact hfirst.behind h

/-- A comma in front is a lexeme of its own. -/
theorem Splits.comma (h : Splits cs ts rest) : Splits (',' :: cs) (.comma :: ts) rest :=
  h.cons rfl fun _ => by simp [scan]

/-- What stands between brackets and items has no lexemes, whatever the layout. -/
theorem splits_lineBreak (layout : Layout) (depth : Nat) :
    Splits (lineBreak layout depth) [] rest := by
  cases layout with
  | compact => exact .nil
  | indented =>
    refine .blank rfl ?_
    induction 2 * depth with
    | zero => exact .nil
    | succ n ih => exact .blank rfl ih

/-- What stands between a key and its value is one colon, whatever the layout. -/
theorem splits_colon (layout : Layout) : Splits (colon layout) [.colon] rest := by
  cases layout with
  | compact => exact Splits.nil.cons rfl fun _ => by simp [scan]
  | indented => exact (Splits.nil.blank rfl).cons rfl fun _ => by simp [scan]

/-- A text in quotes is one lexeme, the text itself. -/
theorem splits_quoted (s : String) : Splits (quoted s) [.string (some s)] rest := by
  refine splits_of_scan rfl ?_
  have hquoted : s.toList.flatMap escape ++ ['\x22'] ++ rest =
      s.toList.flatMap escape ++ '\x22' :: rest := by simp
  rw [hquoted, scan, scanString_quoted]
  simp

/-- What begins with a digit or a minus sign is scanned as a number. -/
theorem scan_of_numeral (h : c.isDigit ∨ c = '-') (cs : List Char) :
    scan (c :: cs) = (scanNumber (c :: cs)).map fun (l, rest) => (.number l, rest) := by
  unfold scan
  split
  case h_11 => rfl
  all_goals
    next heq =>
    cases heq
    exact absurd h (by decide)

/-- A number is one lexeme, if the text does not go on with it. -/
theorem splits_spelled (v : Int) (h : EndsNumber rest) :
    Splits (spelled (.integer v)) [.number (.ofInt v)] rest := by
  obtain ⟨c, digits, hspelled, hc⟩ := exists_spelled_eq_cons v
  have hspace : isSpace c = false := by
    rcases hc with hdigit | rfl
    · by_contra hspace
      simp only [isSpace, Bool.not_eq_false, Bool.or_eq_true, beq_iff_eq] at hspace
      rcases hspace with ((rfl | rfl) | rfl) | rfl <;> revert hdigit <;> decide
    · rfl
  have hnumber := scanNumber_spelled v h
  rw [hspelled] at hnumber ⊢
  refine splits_of_scan hspace ?_
  rw [scan_of_numeral hc, ← List.cons_append, hnumber]
  rfl

end Splits

/-! ## The lexemes of a text -/

section Chars

variable {layout : Layout} {depth : Nat} {rest : List Char}

/-- No number goes on with what ends an item or a member. -/
theorem endsNumber_lineBreak {c : Char} (h : ¬ c.isDigit ∧ c ≠ '.' ∧ c ≠ 'e' ∧ c ≠ 'E') :
    EndsNumber (lineBreak layout depth ++ (c :: rest)) := by
  cases layout with
  | compact => exact .cons h rest
  | indented => exact .cons (by decide) _

/-- No number goes on into the items behind it. -/
theorem endsNumber_itemChars (items : List Json) (h : EndsNumber rest) :
    EndsNumber (itemChars layout depth items ++ rest) := by
  cases items with
  | nil => exact h
  | cons item items => exact .cons (by decide) _

/-- No number goes on into the members behind it. -/
theorem endsNumber_memberChars (members : Members) (h : EndsNumber rest) :
    EndsNumber (memberChars layout depth members ++ rest) := by
  cases members with
  | nil => exact h
  | cons member members => exact .cons (by decide) _

/-- Items behind the first one split into a comma and the lexemes of each, if each item splits. -/
theorem splits_itemChars {items : List Json}
    (hitems : ∀ v ∈ items, ∀ rest, EndsNumber rest →
      Splits (chars layout depth v) (lexemesOf v) rest) (hrest : EndsNumber rest) :
    Splits (itemChars layout depth items) (itemLexemes items) rest := by
  induction items with
  | nil => exact .nil
  | cons item items ih =>
    obtain ⟨hitem, hitems⟩ := List.forall_mem_cons.1 hitems
    refine Splits.comma ?_
    rw [List.append_assoc]
    refine (splits_lineBreak layout depth).append (.append (hitem _ ?_) (ih hitems))
    exact endsNumber_itemChars items hrest

/-- Members behind the first one split into a comma, the key, a colon and the lexemes of each value,
if each value splits. -/
theorem splits_memberChars {members : Members}
    (hmembers : ∀ m ∈ members, ∀ rest, EndsNumber rest →
      Splits (chars layout depth m.2) (lexemesOf m.2) rest) (hrest : EndsNumber rest) :
    Splits (memberChars layout depth members) (memberLexemes members) rest := by
  induction members with
  | nil => exact .nil
  | cons member members ih =>
    obtain ⟨key, value⟩ := member
    obtain ⟨hvalue, hmembers⟩ := List.forall_mem_cons.1 hmembers
    refine Splits.comma ?_
    simp only [List.append_assoc]
    refine (splits_lineBreak layout depth).append ?_
    refine (splits_quoted key).behind ((splits_colon layout).behind ?_)
    exact .append (hvalue _ (endsNumber_memberChars members hrest)) (ih hmembers)

/-- The text of a value is split into the lexemes of the value. -/
theorem splits_chars {v : Json} (hv : v.Integral) (layout : Layout) (depth : Nat) {rest : List Char}
    (hrest : EndsNumber rest) : Splits (chars layout depth v) (lexemesOf v) rest := by
  induction hv generalizing depth rest with
  | null => exact splits_of_scan rfl (by simp [scan])
  | bool value =>
    cases value with
    | true => exact splits_of_scan rfl (by simp [scan])
    | false => exact splits_of_scan rfl (by simp [scan])
  | integer value => exact splits_spelled value hrest
  | string value => exact splits_quoted value
  | @array items _ ih =>
    cases items with
    | nil => exact (Splits.nil.cons rfl fun _ => by simp [scan]).cons rfl fun _ => by simp [scan]
    | cons item items =>
      obtain ⟨hitem, hitems⟩ := List.forall_mem_cons.1 ih
      -- the bracket behind the last item ends a number in it
      have hend : EndsNumber (lineBreak layout depth ++ ([']'] ++ rest)) :=
        endsNumber_lineBreak (by decide)
      have hclose : Splits (lineBreak layout depth ++ [']']) [.closeBracket] rest :=
        (splits_lineBreak layout depth).append (Splits.nil.cons rfl fun _ => by simp [scan])
      refine Splits.cons rfl (fun _ => by simp [scan]) ?_
      simp only [List.append_assoc]
      refine (splits_lineBreak layout (depth + 1)).append ((hitem (depth + 1) ?_).append ?_)
      · simpa using endsNumber_itemChars items hend
      · refine (splits_itemChars (fun v hv _ h => hitems v hv (depth + 1) h) ?_).append hclose
        simpa using hend
  | @object members _ ih =>
    cases members with
    | nil => exact (Splits.nil.cons rfl fun _ => by simp [scan]).cons rfl fun _ => by simp [scan]
    | cons member members =>
      obtain ⟨key, value⟩ := member
      obtain ⟨hvalue, hmembers⟩ := List.forall_mem_cons.1 ih
      have hend : EndsNumber (lineBreak layout depth ++ (['\x7d'] ++ rest)) :=
        endsNumber_lineBreak (by decide)
      have hclose : Splits (lineBreak layout depth ++ ['\x7d']) [.closeBrace] rest :=
        (splits_lineBreak layout depth).append (Splits.nil.cons rfl fun _ => by simp [scan])
      refine Splits.cons rfl (fun _ => by simp [scan]) ?_
      simp only [List.append_assoc]
      refine (splits_lineBreak layout (depth + 1)).append ?_
      refine (splits_quoted key).behind ((splits_colon layout).behind ?_)
      refine (hvalue (depth + 1) ?_).append ?_
      · simpa using endsNumber_memberChars members hend
      · refine (splits_memberChars (fun m hm _ h => hmembers m hm (depth + 1) h) ?_).append hclose
        simpa using hend

/-- The text of a value is split into the lexemes of the value, in every layout. -/
theorem lexemes_chars {v : Json} (hv : v.Integral) (layout : Layout) :
    lexemes (chars layout 0 v) = some (lexemesOf v) := by
  have h := splits_chars hv layout 0 EndsNumber.nil
  unfold Splits at h
  rw [List.append_nil, lexemes, Option.map_some, List.append_nil] at h
  exact h

end Chars

/-! ## Trees -/

mutual

/-- The tree of a value. -/
def treeOf : Json → Tree
  | .null => .null
  | .bool value => .bool value
  | .number value => .number (numberLiteral value)
  | .string value => .string (some value)
  | .array items => .array (itemTrees items)
  | .object members => .object (memberTrees members)

/-- The trees of items. -/
def itemTrees : List Json → List Tree
  | [] => []
  | item :: rest => treeOf item :: itemTrees rest

/-- The trees of members. -/
def memberTrees : List (String × Json) → List (Option String × Tree)
  | [] => []
  | (key, value) :: rest => (some key, treeOf value) :: memberTrees rest

end

/-- The trees of items are those of each. -/
theorem itemTrees_eq_map (items : List Json) : itemTrees items = items.map treeOf := by
  induction items with
  | nil => rfl
  | cons item items ih => rw [itemTrees, List.map_cons, ih]

/-- The trees of members are those of each, under its key. -/
theorem memberTrees_eq_map (members : Members) :
    memberTrees members = members.map fun m => (some m.1, treeOf m.2) := by
  induction members with
  | nil => rfl
  | cons member members ih => rw [memberTrees, List.map_cons, ih]

namespace Tree

variable {stack : List Frame} {more : List Lexeme}

/-- A value may come where an item may come; it does not start with a closing bracket. -/
theorem build_item (v : Json) (stack : List Frame) (more : List Lexeme) :
    build stack .item (lexemesOf v ++ more) = build stack .value (lexemesOf v ++ more) := by
  cases v with
  | array items => cases items <;> rfl
  | object members => cases members <;> rfl
  | _ => rfl

/-- If each item is built from its lexemes, an array that is open is completed by those of its
items. -/
theorem build_itemLexemes {items : List Json}
    (hitems : ∀ v ∈ items, ∀ stack more, build stack .value (lexemesOf v ++ more) =
      build stack (.separator (treeOf v)) more) (done : List Tree) (last : Tree) :
    build (.array done :: stack) (.separator last) (itemLexemes items ++ .closeBracket :: more) =
      build stack (.separator (.array (done.reverse ++ last :: itemTrees items))) more := by
  induction items generalizing done last with
  | nil => simp [itemLexemes, itemTrees, build, step]
  | cons item items ih =>
    obtain ⟨hitem, hitems⟩ := List.forall_mem_cons.1 hitems
    rw [itemLexemes, List.cons_append, build, step, List.append_assoc]
    dsimp only
    rw [hitem, ih hitems, itemTrees, List.reverse_cons, List.append_assoc]
    rfl

/-- If each value is built from its lexemes, an object that is open is completed by those of its
members. -/
theorem build_memberLexemes {members : Members}
    (hmembers : ∀ m ∈ members, ∀ stack more, build stack .value (lexemesOf m.2 ++ more) =
      build stack (.separator (treeOf m.2)) more) (done : List (Option String × Tree))
    (key : String) (last : Tree) :
    build (.object done (some key) :: stack) (.separator last)
        (memberLexemes members ++ .closeBrace :: more) =
      build stack (.separator (.object (done.reverse ++ (some key, last) :: memberTrees members)))
        more := by
  induction members generalizing done key last with
  | nil => simp [memberLexemes, memberTrees, build, step]
  | cons member members ih =>
    obtain ⟨key', value⟩ := member
    obtain ⟨hvalue, hmembers⟩ := List.forall_mem_cons.1 hmembers
    rw [memberLexemes]
    simp only [List.cons_append, List.append_assoc, build, step]
    rw [hvalue, ih hmembers, memberTrees, List.reverse_cons, List.append_assoc]
    rfl

/-- The lexemes of a value are built into the tree of the value, whatever is open around it. -/
theorem build_lexemesOf {v : Json} (hv : v.Integral) (stack : List Frame) (more : List Lexeme) :
    build stack .value (lexemesOf v ++ more) = build stack (.separator (treeOf v)) more := by
  induction hv generalizing stack more with
  | null => rfl
  | bool value => rfl
  | integer value => rfl
  | string value => rfl
  | @array items _ ih =>
    cases items with
    | nil => rfl
    | cons item items =>
      obtain ⟨hitem, hitems⟩ := List.forall_mem_cons.1 ih
      rw [lexemesOf]
      simp only [List.cons_append, List.append_assoc, build, step, begin]
      rw [build_item, hitem, List.nil_append, build_itemLexemes hitems, treeOf, itemTrees]
      rfl
  | @object members _ ih =>
    cases members with
    | nil => rfl
    | cons member members =>
      obtain ⟨key, value⟩ := member
      obtain ⟨hvalue, hmembers⟩ := List.forall_mem_cons.1 ih
      rw [lexemesOf]
      simp only [List.cons_append, List.append_assoc, build, step, begin]
      rw [hvalue, List.nil_append, build_memberLexemes hmembers, treeOf, memberTrees]
      rfl

/-- The tree of the text of a value is the tree of the value. -/
theorem parse_render {v : Json} (hv : v.Integral) (layout : Layout) :
    parse (render layout v) = some (treeOf v) := by
  have hbuild := build_lexemesOf hv [] []
  rw [List.append_nil] at hbuild
  rw [parse, render, String.toList_ofList, lexemes_chars hv, Option.bind_some, hbuild]
  rfl

end Tree

end Retrace.Json
