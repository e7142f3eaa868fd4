import BrakeCheck.Formula.Model
import BrakeCheck.Formula.Printer
import BrakeCheck.Proofs.RoundTrip

/-!
# What a text means

A text is read here from left to right, one character after the other, and nothing is known of the
term or formula that it has been written for, not even which of the two it was.  So whatever has
been read is given both a number and a truth value, and where it stands decides which one is used.

A text is made of items: the whole text is one, and so is every argument of a function and what
stands between parentheses.  An item is a sum, or two sums and a relation between them, and the
operands of a sum are words, and functions with their arguments.  The signs and factors before an
operand are multiplied.

## Main definitions

* `Value` — a number and a truth value.
* `Operand`, `Prior`, `Frame`, `State` — the operand that is read, the item up to it, the items
  around it.
* `step`, `read`, `meaning` — one character, several of them, and a whole text.
* `Means` — a text is read as an item with a value.

## Main statements

* `read_word`, `read_rationalDigits` — words and numbers.
* `read_items`, `read_arguments` — items between commas, and a function with its arguments.
-/

namespace BrakeCheck.Reading

open Rational

/-! ### The reader -/

/-- What has been read, as a number and as a truth value. -/
structure Value where
  number : Rat
  truth : Bool

/-- What has been read of an operand. -/
inductive Operand where
  | missing
  /-- The characters of a name, of a number or of an operator. -/
  | word (w : List Char)
  /-- Something that ends with a parenthesis. -/
  | known (x : Value)

/-- What has been read of an item before its last operand. -/
structure Prior where
  /-- The left side of the relation, if this has been read. -/
  compared : Option (Rat × Relation)
  /-- The operands that the last one is added to. -/
  sum : Rat
  /-- What the last operand is multiplied by. -/
  factor : Rat

/-- The beginning of an item. -/
def Prior.start : Prior := ⟨none, 0, 1⟩

/-- An item that has been interrupted by an opening parenthesis, and the values between this and
the last comma. -/
structure Frame where
  prior : Prior
  operand : Operand
  values : List Value

/-- The interrupted items, the last one first, and the item that is being read. -/
structure State where
  frames : List Frame
  prior : Prior
  operand : Operand

/-- The number of a word: digits are read, and other words are names. -/
def wordNumber (v : String → Rat) : List Char → Rat
  | [] => 0
  | c :: cs =>
    if c.isDigit then (readTrimmed (c :: cs)).toOption.getD 0 else v (String.ofList (c :: cs))

/-- The value of an operand. -/
def Operand.value (v : String → Rat) : Operand → Value
  | missing => ⟨0, false⟩
  | word w => ⟨wordNumber v w, w = "True".toList⟩
  | known x => x

/-- The value of an operand with a function before the parenthesis. -/
def call : String → List Value → Value
  | "Abs", [x] => ⟨x.number.abs, false⟩
  | "Not", [x] => ⟨0, !x.truth⟩
  | "And", xs => ⟨0, xs.all Value.truth⟩
  | "Or", xs => ⟨0, xs.any Value.truth⟩
  | "Implies", [x, y] => ⟨0, !x.truth || y.truth⟩
  | "If", [c, x, y] => bif c.truth then x else y
  | _, _ => ⟨0, false⟩

/-- The value of an operand with parentheses in it. -/
def Operand.apply : Operand → List Value → Value
  | missing, [x] => x
  | word w, xs => call (String.ofList w) xs
  | _, _ => ⟨0, false⟩

namespace Prior

/-- The sum with the last operand. -/
def total (v : String → Rat) (p : Prior) (o : Operand) : Rat :=
  p.sum + p.factor * (o.value v).number

/-- The value of an item. -/
def value (v : String → Rat) (p : Prior) (o : Operand) : Value :=
  ⟨p.total v o, match p.compared with
    | some (a, r) => r.holds a (p.total v o)
    | none => (o.value v).truth⟩

/-- The values that end with an item: there is none between two parentheses with nothing in
between. -/
def values (v : String → Rat) (p : Prior) : Operand → List Value
  | .missing => []
  | o => [p.value v o]

/-- The last operand becomes a part of the sum. -/
def add (v : String → Rat) (p : Prior) (o : Operand) : Prior := ⟨p.compared, p.total v o, 1⟩

/-- The relation that a word is. -/
def relation? (w : List Char) : Option Relation :=
  [Relation.lt, .le, .gt, .ge, .eq, .ne].find? fun r => r.render.toList = w

/-- A blank ends an operand or an operator. -/
def settle (v : String → Rat) (p : Prior) : Operand → Prior
  | .missing => p
  | .known x => p.add v (.known x)
  | .word w =>
    if w = ['+'] then p
    else match relation? w with
      | some r => ⟨some (p.sum, r), 0, 1⟩
      | none => p.add v (.word w)

end Prior

/-- A word becomes longer by one character. -/
def Operand.append : Operand → Char → Operand
  | missing, c => word [c]
  | word w, c => word (w ++ [c])
  | known x, _ => known x

/-- A comma or a closing parenthesis outside of all parentheses is skipped. -/
def State.inFrame (s : State) (act : Frame → List Frame → State) : State :=
  match s.frames with
  | [] => s
  | f :: fs => act f fs

/-- Reads one character. -/
def step (v : String → Rat) (s : State) : Char → State
  | ' ' => ⟨s.frames, s.prior.settle v s.operand, .missing⟩
  | '-' => ⟨s.frames, { s.prior with factor := -s.prior.factor }, s.operand⟩
  | '*' =>
    ⟨s.frames, { s.prior with factor := s.prior.factor * (s.operand.value v).number }, .missing⟩
  | '(' => ⟨⟨s.prior, s.operand, []⟩ :: s.frames, .start, .missing⟩
  | ',' => s.inFrame fun f fs =>
    ⟨{ f with values := f.values ++ s.prior.values v s.operand } :: fs, .start, .missing⟩
  | ')' => s.inFrame fun f fs =>
    ⟨fs, f.prior, .known (f.operand.apply (f.values ++ s.prior.values v s.operand))⟩
  | c => ⟨s.frames, s.prior, s.operand.append c⟩

/-- Reads some characters. -/
def read (v : String → Rat) (s : State) (cs : List Char) : State := cs.foldl (step v) s

/-- What a whole text means. -/
def meaning (v : String → Rat) (text : String) : Value :=
  let s := read v ⟨[], .start, .missing⟩ text.toList
  s.prior.value v s.operand

variable {v : String → Rat} {s : State} {fs : List Frame} {p : Prior} {o : Operand}
  {w as bs : List Char} {c : Char}

theorem read_append : read v s (as ++ bs) = read v (read v s as) bs := List.foldl_append

@[simp] theorem read_nil : read v s [] = s := rfl

theorem read_cons : read v s (c :: as) = read v (step v s c) as := rfl

/-! ### Words -/

/-- The characters that are not part of words. -/
def marks : List Char := [' ', '-', '*', '(', ',', ')']

/-- Characters of a word, one at least. -/
structure IsWord (w : List Char) : Prop where
  ne_nil : w ≠ []
  not_mark : ∀ c ∈ w, c ∉ marks

instance (w : List Char) : Decidable (IsWord w) :=
  decidable_of_iff (w ≠ [] ∧ w.all (· ∉ marks) = true)
    ⟨fun ⟨h, h'⟩ => ⟨h, by simpa using h'⟩, fun h => ⟨h.ne_nil, by simpa using h.not_mark⟩⟩

theorem step_of_not_mark (h : c ∉ marks) : step v ⟨fs, p, o⟩ c = ⟨fs, p, o.append c⟩ := by
  unfold step
  split
  -- the last case is that of all other characters
  case h_7 => rfl
  all_goals exact absurd (by decide) h

/-- A word is read up to the next mark. -/
theorem read_word (h : IsWord w) : read v ⟨fs, p, .missing⟩ w = ⟨fs, p, .word w⟩ := by
  have hrest : ∀ (before after : List Char), (∀ c ∈ after, c ∉ marks) →
      read v ⟨fs, p, .word before⟩ after = ⟨fs, p, .word (before ++ after)⟩ := by
    intro before after
    induction after generalizing before with
    | nil => simp
    | cons c after ih =>
      intro hmarks
      obtain ⟨hc, hafter⟩ := List.forall_mem_cons.1 hmarks
      rw [read_cons, step_of_not_mark hc, Operand.append, ih _ hafter, List.append_assoc,
        List.singleton_append]
  obtain ⟨c, cs, rfl⟩ := List.exists_cons_of_ne_nil h.ne_nil
  obtain ⟨hc, hcs⟩ := List.forall_mem_cons.1 h.not_mark
  rw [read_cons, step_of_not_mark hc, Operand.append, hrest [c] cs hcs, List.singleton_append]

/-- An operand has been read to its end, and it is none of the operators that are words. -/
def Operand.Complete : Operand → Prop
  | missing => False
  | word w => w ≠ ['+'] ∧ Prior.relation? w = none
  | known _ => True

/-- A word that begins with a letter or a digit is no operator. -/
theorem complete_word (hc : c.isAlphanum = true) : (Operand.word (c :: w)).Complete := by
  refine ⟨?_, List.find?_eq_none.2 fun r _ hr => ?_⟩
  · rintro h
    obtain rfl := (List.cons.inj h).1
    exact absurd hc (by decide)
  · have hhead : r.render.toList.head?.all Char.isAlphanum = false := by
      cases r <;> decide
    rw [of_decide_eq_true hr, List.head?_cons, Option.all_some, hc] at hhead
    cases hhead

theorem settle_of_complete (h : o.Complete) : p.settle v o = p.add v o := by
  cases o with
  | missing => exact h.elim
  | known x => rfl
  | word w =>
    rw [Prior.settle, if_neg h.1, h.2]

theorem values_of_complete (h : o.Complete) : p.values v o = [p.value v o] := by
  cases o with
  | missing => exact h.elim
  | known x => rfl
  | word w => rfl

theorem relation?_render (r : Relation) : Prior.relation? r.render.toList = some r := by
  cases r <;> decide

/-- A relation between blanks. -/
theorem read_relation (r : Relation) (h : o.Complete) :
    read v ⟨fs, p, o⟩ (' ' :: (r.render.toList ++ [' '])) =
      ⟨fs, ⟨some (p.total v o, r), 0, 1⟩, .missing⟩ := by
  have hword : IsWord r.render.toList := by
    cases r <;> decide
  have hplus : r.render.toList ≠ ['+'] := by
    cases r <;> decide
  rw [read_cons, step, settle_of_complete h, read_append, read_word hword, read_cons, read_nil,
    step, Prior.settle, if_neg hplus, relation?_render]
  rfl

/-- A plus sign between blanks. -/
theorem read_plus (h : o.Complete) :
    read v ⟨fs, p, o⟩ [' ', '+', ' '] = ⟨fs, p.add v o, .missing⟩ := by
  rw [read_cons, step, settle_of_complete h]
  rfl

/-- A minus sign between blanks. -/
theorem read_minus (h : o.Complete) :
    read v ⟨fs, p, o⟩ [' ', '-', ' '] = ⟨fs, { p.add v o with factor := -1 }, .missing⟩ := by
  rw [read_cons, step, settle_of_complete h]
  rfl

/-! ### Numbers -/

theorem not_mark_of_isDigit (h : c.isDigit = true) : c ∉ marks := by
  have hmarks : marks.any Char.isDigit = false := by decide
  exact fun hc => List.any_eq_false.1 hmarks c hc h

theorem isWord_of_isDigits (h : IsDigits w) : IsWord w :=
  ⟨h.ne_nil, fun _ hc => not_mark_of_isDigit (h.isDigit _ hc)⟩

/-- The numerator of a number that is not negative has no sign. -/
theorem isDigits_numerator {q : Rat} (h : 0 ≤ q) : IsDigits (integerDigits q.num) := by
  obtain ⟨n, hn⟩ := Int.eq_ofNat_of_zero_le (Rat.num_nonneg.2 h)
  rw [hn]
  exact isDigits_naturalDigits n

/-- A number that is not negative is written as a word. -/
theorem isWord_rationalDigits {q : Rat} (h : 0 ≤ q) : IsWord (rationalDigits q) := by
  have hnum := isWord_of_isDigits (isDigits_numerator h)
  have hden := isWord_of_isDigits (isDigits_naturalDigits q.den)
  unfold rationalDigits
  split
  · exact hnum
  · refine ⟨List.append_ne_nil_of_left_ne_nil hnum.ne_nil _, fun c hc => ?_⟩
    rcases List.mem_append.1 hc with hc | hc
    · exact hnum.not_mark c hc
    · rcases List.mem_cons.1 hc with rfl | hc
      · decide
      · exact hden.not_mark c hc

/-- A number that is not negative begins with a digit. -/
theorem exists_rationalDigits_eq_cons {q : Rat} (h : 0 ≤ q) :
    ∃ c cs, rationalDigits q = c :: cs ∧ c.isDigit = true := by
  have hdigits := isDigits_numerator h
  obtain ⟨c, cs, hcs⟩ := List.exists_cons_of_ne_nil hdigits.ne_nil
  have hc : c.isDigit = true := hdigits.isDigit c (hcs ▸ List.mem_cons_self)
  rw [rationalDigits, hcs]
  split
  · exact ⟨c, cs, rfl, hc⟩
  · exact ⟨c, _, List.cons_append, hc⟩

/-- A negative number is written as the opposite one after a minus sign. -/
theorem rationalDigits_of_neg {q : Rat} (h : q < 0) :
    rationalDigits q = '-' :: rationalDigits (-q) := by
  obtain ⟨n, hn⟩ := Int.eq_negSucc_of_lt_zero (Rat.num_neg.2 h)
  have hopposite : integerDigits (-q).num = naturalDigits (n + 1) := by
    rw [Rat.num_neg_eq_neg_num, hn]
    rfl
  have hnum : integerDigits q.num = '-' :: naturalDigits (n + 1) := by rw [hn]; rfl
  rw [rationalDigits, rationalDigits, Rat.den_neg_eq_den, hopposite, hnum]
  split <;> rfl

/-- The word of a number that is not negative is no operator. -/
theorem complete_rationalDigits {q : Rat} (h : 0 ≤ q) :
    (Operand.word (rationalDigits q)).Complete := by
  obtain ⟨c, cs, hcs, hc⟩ := exists_rationalDigits_eq_cons h
  rw [hcs]
  exact complete_word (by rw [Char.isAlphanum, hc, Bool.or_true])

/-- The word of a number that is not negative is not taken for a name. -/
theorem wordNumber_rationalDigits {q : Rat} (h : 0 ≤ q) : wordNumber v (rationalDigits q) = q := by
  have hread := readTrimmed_rationalDigits q
  obtain ⟨c, cs, hcs, hc⟩ := exists_rationalDigits_eq_cons h
  rw [hcs] at hread ⊢
  rw [wordNumber, if_pos hc, hread]
  rfl

/-- A number is read as a word, after a sign that goes to the factor. -/
theorem read_rationalDigits (v : String → Rat) (p : Prior) (q : Rat) :
    ∃ factor w, (∀ fs, read v ⟨fs, p, .missing⟩ (rationalDigits q) =
        ⟨fs, { p with factor := factor }, .word w⟩) ∧
      (Operand.word w).Complete ∧ factor * wordNumber v w = p.factor * q := by
  by_cases h : 0 ≤ q
  · refine ⟨p.factor, rationalDigits q, fun fs => read_word (isWord_rationalDigits h),
      complete_rationalDigits h, ?_⟩
    rw [wordNumber_rationalDigits h]
  · have hneg := not_le.1 h
    have hopposite : 0 ≤ -q := neg_nonneg.2 hneg.le
    refine ⟨-p.factor, rationalDigits (-q), fun fs => ?_, complete_rationalDigits hopposite, ?_⟩
    · rw [rationalDigits_of_neg hneg, read_cons]
      exact read_word (isWord_rationalDigits hopposite)
    · rw [wordNumber_rationalDigits hopposite, neg_mul_neg]

/-! ### Items and functions -/

/-- A text is read as an item that has this value, wherever it stands. -/
def Means (v : String → Rat) (text : List Char) (x : Value) : Prop :=
  ∃ p o, (∀ fs, read v ⟨fs, .start, .missing⟩ text = ⟨fs, p, o⟩) ∧ o.Complete ∧ p.value v o = x

/-- A word by itself. -/
theorem means_word (h : IsWord w) (hcomplete : (Operand.word w).Complete) :
    Means v w (Prior.start.value v (.word w)) :=
  ⟨.start, .word w, fun _ => read_word h, hcomplete, rfl⟩

/-- A text that is read as an item means the value of this item. -/
theorem Means.meaning_eq {text : String} {x : Value} (h : Means v text.toList x) :
    meaning v text = x := by
  obtain ⟨p, o, hread, -, rfl⟩ := h
  rw [meaning, hread]

/-- A comma ends an item, and the blank after it does nothing. -/
theorem read_comma (f : Frame) (h : o.Complete) :
    read v ⟨f :: fs, p, o⟩ [',', ' '] =
      ⟨{ f with values := f.values ++ [p.value v o] } :: fs, .start, .missing⟩ := by
  rw [read_cons, step, State.inFrame, values_of_complete h]
  rfl

/-- A closing parenthesis ends an item and the operand that it belongs to. -/
theorem read_close (f : Frame) (h : o.Complete) :
    read v ⟨f :: fs, p, o⟩ [')'] =
      ⟨fs, f.prior, .known (f.operand.apply (f.values ++ [p.value v o]))⟩ := by
  rw [read_cons, step, State.inFrame, values_of_complete h]
  rfl

/-- Items with commas between them are read up to the closing parenthesis, by induction on their
texts. -/
theorem read_items {text : List Char} {texts : List (List Char)} {x : Value} {xs : List Value}
    (h : List.Forall₂ (Means v) (text :: texts) (x :: xs)) (f : Frame) :
    read v ⟨f :: fs, .start, .missing⟩ ([',', ' '].intercalate (text :: texts) ++ [')']) =
      ⟨fs, f.prior, .known (f.operand.apply (f.values ++ x :: xs))⟩ := by
  induction texts generalizing f text x xs with
  | nil =>
    obtain ⟨⟨p, o, hread, hcomplete, rfl⟩, hnil⟩ := List.forall₂_cons.1 h
    cases hnil
    rw [List.intercalate_singleton, read_append, hread, read_close f hcomplete]
  | cons next texts ih =>
    obtain ⟨⟨p, o, hread, hcomplete, rfl⟩, hrest⟩ := List.forall₂_cons.1 h
    cases hrest with
    | cons hnext hrest =>
      rw [List.intercalate_cons_cons, List.append_assoc, List.append_assoc, read_append, hread,
        read_append, read_comma f hcomplete, ih (.cons hnext hrest)]
      dsimp only
      rw [List.append_assoc, List.singleton_append]

/-- A function with its arguments is read as an operand. -/
theorem read_arguments {name : String} (hname : IsWord name.toList) {texts : List String}
    {xs : List Value} (h : List.Forall₂ (Means v) (texts.map String.toList) xs) (fs : List Frame)
    (p : Prior) :
    read v ⟨fs, p, .missing⟩ (renderArguments name texts).toList =
      ⟨fs, p, .known (call name xs)⟩ := by
  have hopen : read v ⟨fs, p, .missing⟩ (renderArguments name texts).toList =
      read v ⟨⟨p, .word name.toList, []⟩ :: fs, .start, .missing⟩
        ([',', ' '].intercalate (texts.map String.toList) ++ [')']) := by
    rw [renderArguments, String.toList_append, String.toList_append, String.toList_append,
      String.toList_intercalate, List.append_assoc, List.append_assoc, read_append,
      read_word hname, read_append]
    rfl
  have happly : (Operand.word name.toList).apply xs = call name xs := by
    rw [Operand.apply, String.ofList_toList]
  rw [hopen, ← happly]
  cases texts with
  | nil =>
    cases h
    rfl
  | cons text texts =>
    rw [List.map_cons] at h
    cases h with
    | cons hx hxs => exact read_items (.cons hx hxs) _

/-- A function with its arguments by itself. -/
theorem means_arguments {name : String} (hname : IsWord name.toList) {texts : List String}
    {xs : List Value} (h : List.Forall₂ (Means v) (texts.map String.toList) xs) :
    Means v (renderArguments name texts).toList (call name xs) := by
  refine ⟨.start, .known (call name xs), fun fs => read_arguments hname h fs .start, trivial, ?_⟩
  rw [Prior.value, Prior.total, Prior.start, zero_add, one_mul]
  rfl

end BrakeCheck.Reading
