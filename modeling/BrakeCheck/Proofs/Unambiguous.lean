import BrakeCheck.Proofs.TextMeaning

/-!
# Texts are unambiguous

The text of a term is read as its value, and the text of a formula as its truth value, if the names
in it are identifiers.  Parentheses are written around some operands only, so different terms may
have the same text; but what is read off the text is the value of every one of them.

## Main definitions

* `IsIdentifier` — a letter, and then letters, digits and underscores.
* `Reading.Reads` — a text adds a number to the item it stands in.

## Main statements

* `Term.reads`, `Formula.means` — texts are read as what they have been written for.
* `render_unambiguous` — what has one text has one value under every model.
-/

namespace BrakeCheck

open Rational Reading

/-- Whether a character may stand in an identifier: a letter, a digit or an underscore.  All
characters beyond the first 128 count as letters. -/
def isIdentifierChar (c : Char) : Bool := c.isAlphanum || c = '_' || 127 < c.toNat

/-- A letter of the alphabet, and after it letters, digits and underscores. -/
structure IsIdentifier (x : String) : Prop where
  head : x.toList.head?.any Char.isAlpha = true
  rest : x.toList.all isIdentifierChar = true

instance (x : String) : Decidable (IsIdentifier x) :=
  decidable_of_iff (x.toList.head?.any Char.isAlpha = true ∧ x.toList.all isIdentifierChar = true)
    ⟨fun ⟨h, h'⟩ => ⟨h, h'⟩, fun h => ⟨h.head, h.rest⟩⟩

namespace Reading

variable {v : String → Rat} {p : Prior} {o : Operand} {text : List Char} {q : Rat}

/-- A text is read after part of an item, and its number, times the factor that stands there, is
added to the sum. -/
def Reads (v : String → Rat) (p : Prior) (text : List Char) (q : Rat) : Prop :=
  ∃ p' o, (∀ fs, read v ⟨fs, p, .missing⟩ text = ⟨fs, p', o⟩) ∧ o.Complete ∧
    p'.compared = p.compared ∧ p'.total v o = p.sum + p.factor * q

/-- A single operand adds its number. -/
theorem Reads.of_operand (ho : o.Complete)
    (h : ∀ fs, read v ⟨fs, p, .missing⟩ text = ⟨fs, p, o⟩) :
    Reads v p text (o.value v).number := ⟨p, o, h, ho, rfl, rfl⟩

/-- What is read from the beginning of an item is the number of the item. -/
theorem Reads.means (h : Reads v .start text q) : ∃ x : Value, x.number = q ∧ Means v text x := by
  obtain ⟨p, o, hread, hcomplete, -, htotal⟩ := h
  refine ⟨p.value v o, ?_, p, o, hread, hcomplete, rfl⟩
  rw [Prior.value, htotal, Prior.start, one_mul, zero_add]

/-- An item between parentheses is an operand. -/
theorem Reads.parentheses (h : Reads v .start text q) (p : Prior) :
    Reads v p ('(' :: (text ++ [')'])) q := by
  obtain ⟨x, rfl, p', o, hread, hcomplete, hvalue⟩ := h.means
  refine .of_operand (o := .known x) trivial fun fs => ?_
  rw [read_cons, read_append]
  show read v (read v ⟨⟨p, .missing, []⟩ :: fs, .start, .missing⟩ text) _ = _
  rw [hread, read_close _ hcomplete, hvalue]
  rfl

/-- A function with its arguments is an operand. -/
theorem Reads.of_arguments {name : String} (hname : IsWord name.toList) {texts : List String}
    {xs : List Value} (h : List.Forall₂ (Means v) (texts.map String.toList) xs) (p : Prior) :
    Reads v p (renderArguments name texts).toList (call name xs).number :=
  .of_operand (o := .known (call name xs)) trivial fun fs => read_arguments hname h fs p

/-- The letters come after the digits. -/
theorem isDigit_of_isAlpha {c : Char} (h : c.isAlpha = true) : c.isDigit = false := by
  have hfirst : 'A'.toNat ≤ c.toNat := by
    rcases Bool.or_eq_true_iff.1 h with hupper | hlower
    · exact UInt32.le_iff_toNat_le.1 (of_decide_eq_true hupper).1
    · have hle : 'a'.toNat ≤ c.toNat :=
        UInt32.le_iff_toNat_le.1 (of_decide_eq_true (Bool.and_eq_true_iff.1 hlower).1)
      exact le_trans (by decide) hle
  refine Bool.eq_false_iff.2 fun hdigit => ?_
  have hlast := (Char.isDigit_iff_toNat.1 hdigit).2
  exact absurd (hfirst.trans hlast) (by decide)

/-- An identifier is read as a name. -/
theorem reads_identifier {x : String} (h : IsIdentifier x) (p : Prior) :
    Reads v p x.toList (v x) := by
  have hmarks : marks.any isIdentifierChar = false := by decide
  obtain ⟨c, hc, halpha⟩ := (Option.any_eq_true _ _).1 h.head
  obtain ⟨cs, hcs⟩ := List.head?_eq_some_iff.1 hc
  have hword : IsWord x.toList :=
    ⟨hcs ▸ List.cons_ne_nil c cs,
      fun d hd hmark => List.any_eq_false.1 hmarks d hmark (List.all_eq_true.1 h.rest d hd)⟩
  have hcomplete : (Operand.word x.toList).Complete := by
    rw [hcs]
    exact complete_word (by rw [Char.isAlphanum, halpha, Bool.true_or])
  have hnumber : wordNumber v x.toList = v x := by
    have hnot : ¬ c.isDigit = true := Bool.eq_false_iff.1 (isDigit_of_isAlpha halpha)
    rw [hcs, wordNumber, if_neg hnot, ← hcs, String.ofList_toList]
  exact hnumber ▸ .of_operand hcomplete fun fs => read_word hword

/-- A constant is read as its number. -/
theorem reads_rational (q : Rat) (p : Prior) : Reads v p (rationalDigits q) q := by
  obtain ⟨factor, w, hread, hcomplete, hnumber⟩ := read_rationalDigits v p q
  exact ⟨_, _, hread, hcomplete, rfl, congrArg (p.sum + ·) hnumber⟩

/-! ### Sums and factors -/

variable {left right : List Char} {a b : Rat}

/-- The right side of a plus sign is read with the factor one again. -/
theorem Reads.plus (ha : Reads v p left a) (hp : p.factor = 1)
    (hb : ∀ p : Prior, p.factor = 1 → Reads v p right b) :
    Reads v p (left ++ ([' ', '+', ' '] ++ right)) (a + b) := by
  obtain ⟨p', o, hread, hcomplete, hcompared, htotal⟩ := ha
  obtain ⟨p'', o', hread', hcomplete', hcompared', htotal'⟩ := hb (p'.add v o) rfl
  refine ⟨p'', o', fun fs => ?_, hcomplete', hcompared'.trans hcompared, ?_⟩
  · rw [read_append, hread, read_append, read_plus hcomplete, hread']
  · rw [htotal', Prior.add, htotal, hp]
    ring

/-- The right side of a minus sign is read with the factor minus one. -/
theorem Reads.minus (ha : Reads v p left a) (hp : p.factor = 1)
    (hb : ∀ p : Prior, Reads v p right b) :
    Reads v p (left ++ ([' ', '-', ' '] ++ right)) (a - b) := by
  obtain ⟨p', o, hread, hcomplete, hcompared, htotal⟩ := ha
  obtain ⟨p'', o', hread', hcomplete', hcompared', htotal'⟩ :=
    hb { p'.add v o with factor := -1 }
  refine ⟨p'', o', fun fs => ?_, hcomplete', hcompared'.trans hcompared, ?_⟩
  · rw [read_append, hread, read_append, read_minus hcomplete, hread']
  · rw [htotal', Prior.add, htotal, hp]
    ring

/-- A minus sign before an operand changes the sign of its factor. -/
theorem Reads.opposite (h : ∀ p : Prior, Reads v p text q) (p : Prior) :
    Reads v p ('-' :: text) (-q) := by
  obtain ⟨p', o, hread, hcomplete, hcompared, htotal⟩ := h { p with factor := -p.factor }
  refine ⟨p', o, fun fs => ?_, hcomplete, hcompared, ?_⟩
  · rw [read_cons, step, hread]
  · rw [htotal]
    ring

/-- A constant before an operand is a factor of it. -/
theorem Reads.multiple (h : ∀ p : Prior, Reads v p text q) (c : Rat) (p : Prior) :
    Reads v p (rationalDigits c ++ ('*' :: text)) (c * q) := by
  obtain ⟨factor, w, hread, -, hnumber⟩ := read_rationalDigits v p c
  obtain ⟨p', o, hread', hcomplete, hcompared, htotal⟩ :=
    h { p with factor := factor * wordNumber v w }
  refine ⟨p', o, fun fs => ?_, hcomplete, hcompared, ?_⟩
  · rw [read_append, hread, read_cons, step]
    exact hread' fs
  · rw [htotal, hnumber]
    ring

/-- Two sums with a relation between them are read as what the relation says of their numbers. -/
theorem means_relation (ha : Reads v .start left a) (r : Relation)
    (hb : ∀ p : Prior, p.factor = 1 → Reads v p right b) :
    ∃ x : Value, x.truth = r.holds a b ∧
      Means v (left ++ (' ' :: (r.render.toList ++ [' ']) ++ right)) x := by
  obtain ⟨p, o, hread, hcomplete, -, htotal⟩ := ha
  obtain ⟨p', o', hread', hcomplete', hcompared, htotal'⟩ := hb ⟨some (p.total v o, r), 0, 1⟩ rfl
  refine ⟨p'.value v o', ?_, p', o', fun fs => ?_, hcomplete', rfl⟩
  · rw [Prior.value, hcompared, htotal', htotal, Prior.start]
    simp
  · rw [read_append, hread, read_append, read_relation r hcomplete, hread']

/-- A term is an operand if it is between parentheses or needs none. -/
theorem Reads.operand {t : Term}
    (h : ∀ p : Prior, (t.isAtomic = false → p.factor = 1) → Reads v p t.render.toList q)
    (p : Prior) : Reads v p (t.operand t.render).toList q := by
  unfold Term.operand
  split
  · next hatomic => exact h p fun hnot => absurd hatomic (by rw [hnot]; exact Bool.false_ne_true)
  · rw [String.toList_append, String.toList_append, List.append_assoc]
    exact (h .start fun _ => rfl).parentheses p

end Reading

/-! ### Terms and formulas -/

section

variable {v : String → Rat}

mutual

/-- The text of a term adds its value.  By induction on the syntax: a sum, an opposite or a multiple
is read only where the factor is one, at the beginning of an item or as a side of a sum, since it is
put in parentheses elsewhere. -/
theorem Term.reads (t : Term) (h : ∀ x ∈ t.names, IsIdentifier x) (p : Prior)
    (hp : t.isAtomic = false → p.factor = 1) : Reads v p t.render.toList (t.eval v) := by
  cases t with
  | var x => exact reads_identifier (h x List.mem_cons_self) p
  | const c =>
    rw [Term.render, Term.eval, showRational, String.toList_ofList]
    exact reads_rational c p
  | add a b =>
    obtain ⟨hna, hnb⟩ := List.forall_mem_append.1 h
    have ha := a.reads hna p fun _ => hp rfl
    rw [Term.render, Term.eval, String.toList_append, String.toList_append, List.append_assoc]
    exact ha.plus (hp rfl) fun p hp => b.reads hnb p fun _ => hp
  | sub a b =>
    obtain ⟨hna, hnb⟩ := List.forall_mem_append.1 h
    have ha := a.reads hna p fun _ => hp rfl
    rw [Term.render, Term.eval, String.toList_append, String.toList_append, List.append_assoc]
    exact ha.minus (hp rfl) (.operand (b.reads hnb))
  | neg a =>
    rw [Term.render, Term.eval, String.toList_append]
    exact .opposite (.operand (a.reads h)) p
  | scale c a =>
    rw [Term.render, Term.eval, String.toList_append, String.toList_append, showRational,
      String.toList_ofList, List.append_assoc]
    exact .multiple (.operand (a.reads h)) c p
  | abs a =>
    obtain ⟨x, hx, hmeans⟩ := (a.reads h .start fun _ => rfl).means
    have hvalue : (call "Abs" [x]).number = x.number.abs := rfl
    rw [Term.render, Term.eval, ← hx, ← hvalue]
    exact .of_arguments (by decide) (.cons hmeans .nil) p
  | ite c a b =>
    obtain ⟨hnca, hnb⟩ := List.forall_mem_append.1 h
    obtain ⟨hnc, hna⟩ := List.forall_mem_append.1 hnca
    obtain ⟨x, hx, hc⟩ := c.means hnc
    obtain ⟨y, hy, ha⟩ := (a.reads hna .start fun _ => rfl).means
    obtain ⟨z, hz, hb⟩ := (b.reads hnb .start fun _ => rfl).means
    have hvalue : (call "If" [x, y, z]).number = bif x.truth then y.number else z.number :=
      Bool.apply_cond Value.number
    rw [Term.render, Term.eval, ← hx, ← hy, ← hz, ← hvalue]
    exact .of_arguments (by decide) (.cons hc (.cons ha (.cons hb .nil))) p

/-- The text of a formula is read as an item that has its truth value. -/
theorem Formula.means (f : Formula) (h : ∀ x ∈ f.names, IsIdentifier x) :
    ∃ x : Value, x.truth = f.eval v ∧ Means v f.render.toList x := by
  cases f with
  | true => exact ⟨_, rfl, means_word (by decide) (complete_word (by decide))⟩
  | false => exact ⟨_, rfl, means_word (by decide) (complete_word (by decide))⟩
  | compare a r b =>
    obtain ⟨hna, hnb⟩ := List.forall_mem_append.1 h
    have ha := a.reads hna .start fun _ => rfl
    have hmeans := means_relation ha r fun p hp => b.reads hnb p fun _ => hp
    simpa [Formula.render, Formula.eval] using hmeans
  | not f =>
    obtain ⟨x, hx, hf⟩ := f.means h
    rw [Formula.eval, ← hx]
    exact ⟨call "Not" [x], rfl, means_arguments (by decide) (.cons hf .nil)⟩
  | and fs =>
    obtain ⟨xs, hfs, hall, -⟩ := Formula.means_all fs h
    rw [Formula.eval, ← hall]
    exact ⟨call "And" xs, rfl, means_arguments (by decide) hfs⟩
  | or fs =>
    obtain ⟨xs, hfs, -, hany⟩ := Formula.means_all fs h
    rw [Formula.eval, ← hany]
    exact ⟨call "Or" xs, rfl, means_arguments (by decide) hfs⟩
  | implies f g =>
    obtain ⟨hnf, hng⟩ := List.forall_mem_append.1 h
    obtain ⟨x, hx, hf⟩ := f.means hnf
    obtain ⟨y, hy, hg⟩ := g.means hng
    rw [Formula.eval, ← hx, ← hy]
    exact ⟨call "Implies" [x, y], rfl, means_arguments (by decide) (.cons hf (.cons hg .nil))⟩
  | ite c f g =>
    obtain ⟨hncf, hng⟩ := List.forall_mem_append.1 h
    obtain ⟨hnc, hnf⟩ := List.forall_mem_append.1 hncf
    obtain ⟨x, hx, hc⟩ := c.means hnc
    obtain ⟨y, hy, hf⟩ := f.means hnf
    obtain ⟨z, hz, hg⟩ := g.means hng
    rw [Formula.eval, ← hx, ← hy, ← hz, ← Bool.apply_cond Value.truth]
    exact ⟨call "If" [x, y, z], rfl,
      means_arguments (by decide) (.cons hc (.cons hf (.cons hg .nil)))⟩

/-- The texts of a list of formulas are read as items that have their truth values. -/
theorem Formula.means_all (fs : List Formula) (h : ∀ x ∈ Formula.namesOfAll fs, IsIdentifier x) :
    ∃ xs : List Value, List.Forall₂ (Means v) ((Formula.renderAll fs).map String.toList) xs ∧
      xs.all Value.truth = Formula.evalAll v fs ∧ xs.any Value.truth = Formula.evalAny v fs := by
  cases fs with
  | nil => exact ⟨[], .nil, rfl, rfl⟩
  | cons f fs =>
    obtain ⟨hnf, hnfs⟩ := List.forall_mem_append.1 h
    obtain ⟨x, hx, hf⟩ := f.means hnf
    obtain ⟨xs, hfs, hall, hany⟩ := Formula.means_all fs hnfs
    refine ⟨x :: xs, .cons hf hfs, ?_, ?_⟩
    · rw [List.all_cons, Formula.evalAll, hx, hall]
    · rw [List.any_cons, Formula.evalAny, hx, hany]

end

/-- The value of a term is read off its text. -/
theorem Term.meaning_render (t : Term) (h : ∀ x ∈ t.names, IsIdentifier x) :
    (meaning v t.render).number = t.eval v := by
  obtain ⟨x, hx, hmeans⟩ := (t.reads h .start fun _ => rfl).means
  rw [hmeans.meaning_eq, hx]

/-- The truth value of a formula is read off its text. -/
theorem Formula.meaning_render (f : Formula) (h : ∀ x ∈ f.names, IsIdentifier x) :
    (meaning v f.render).truth = f.eval v := by
  obtain ⟨x, hx, hmeans⟩ := f.means h
  rw [hmeans.meaning_eq, hx]

end

/-- Texts are unambiguous.  Two terms whose names are identifiers and that have the same text have
the same value under every model, and two such formulas with the same text have the same truth
value. -/
theorem render_unambiguous :
    (∀ t u : Term, (∀ x ∈ t.names, IsIdentifier x) → (∀ x ∈ u.names, IsIdentifier x) →
      t.render = u.render → ∀ m : Model, m.evalTerm t = m.evalTerm u) ∧
    ∀ f g : Formula, (∀ x ∈ f.names, IsIdentifier x) → (∀ x ∈ g.names, IsIdentifier x) →
      f.render = g.render → ∀ m : Model, Model.eval m f = Model.eval m g := by
  constructor
  · intro t u ht hu htext m
    rw [Model.evalTerm, Model.evalTerm, ← t.meaning_render ht, ← u.meaning_render hu, htext]
  · intro f g hf hg htext m
    rw [Model.eval, Model.eval, ← f.meaning_render hf, ← g.meaning_render hg, htext]

/-- Two terms with the text `a + b_1 - (-2)`, and two formulas with the text `-1 < True`, where
`True` is a name. -/
theorem render_unambiguous_two_trees :
    ∃ (t u : Term) (f g : Formula), t ≠ u ∧ f ≠ g ∧
      t.render = "a + b_1 - (-2)" ∧ u.render = "a + b_1 - (-2)" ∧
      f.render = "-1 < True" ∧ g.render = "-1 < True" ∧
      ∀ m : Model, m.evalTerm t = m.evalTerm u ∧ Model.eval m f = Model.eval m g := by
  obtain ⟨hterms, hformulas⟩ := render_unambiguous
  refine ⟨.add (.var "a") (.sub (.var "b_1") (.neg (.const 2))),
    .sub (.add (.var "a") (.var "b_1")) (.neg (.const 2)),
    .compare (.neg (.const 1)) .lt (.var "True"), .compare (.const (-1)) .lt (.var "True"),
    by simp, by simp, by decide +kernel, by decide +kernel, by decide +kernel, by decide +kernel,
    fun m => ⟨hterms _ _ (by decide) (by decide) (by decide +kernel) m,
      hformulas _ _ (by decide) (by decide) (by decide +kernel) m⟩⟩

end BrakeCheck
