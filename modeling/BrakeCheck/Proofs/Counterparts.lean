import BrakeCheck.Proofs.Partition

/-!
# Comparisons that share their encoding

A comparison and its opposite, and a comparison read from the other side, are encoded by the same
functions of the same atoms.  This cannot be seen from the encodings themselves: each of them is a
disjunction over all pairs of cases, and the opposite of a disjunction is none.  It is true because
of the cases exactly one pair is meant, so that the disjunction is the answer for this pair alone,
and because both comparisons ask the same questions about its difference: whether it, or the turned
difference, is below zero.

An encoding settles.  Whoever follows its outline again, with the atoms there are then or more,
finds all the atoms it asks for and comes to the same answer.  So the second one of two comparisons
that ask the same questions makes no atom, and can be compared with the first one in one table.

## Main definitions

* `Relation.opposite`, `Relation.converse` — the relation that holds where another one does not, and
  the one that holds the other way around.
* `Plan.Settles` — a plan that has been followed makes nothing new when it is followed again.
* `Relation.asks`, `Relation.judge` — the questions that a comparison with zero asks, and its answer
  to them.

## Main statements

* `Term.outline_settles`, `Formula.outline_settles` — all outlines settle.
* `Plan.compareAll_opposite`, `Plan.compareAll_converse` — the conditions of such comparisons.
* `Skeleton.Attained.encode_counterparts` — their encodings, as references.
-/

namespace BrakeCheck

/-! ### Relations -/

namespace Relation

/-- The relation that holds exactly where another one does not. -/
def opposite : Relation → Relation
  | lt => ge
  | le => gt
  | gt => le
  | ge => lt
  | eq => ne
  | ne => eq

/-- The relation that holds exactly where another one does the other way around. -/
def converse : Relation → Relation
  | lt => gt
  | le => ge
  | gt => lt
  | ge => le
  | eq => eq
  | ne => ne

theorem holds_opposite (r : Relation) (p q : Rat) : r.opposite.holds p q = !r.holds p q := by
  cases r with
  | lt => simp [opposite, holds, ← decide_not]
  | le => simp [opposite, holds, ← decide_not]
  | gt => simp [opposite, holds, ← decide_not]
  | ge => simp [opposite, holds, ← decide_not]
  | eq => simp [opposite, holds]
  | ne => simp [opposite, holds]

theorem holds_converse (r : Relation) (p q : Rat) : r.converse.holds p q = r.holds q p := by
  cases r <;> simp [converse, holds, eq_comm]

/-- The expressions of which is asked whether they are below zero, when one is compared with
zero. -/
def asks (r : Relation) (e : LinExpr) : List LinExpr :=
  match r with
  | lt | ge => [e]
  | gt | le => [-e]
  | eq | ne => [e, -e]

/-- How an expression stands to zero, when it is known which expressions are below. -/
def judge (r : Relation) (below : LinExpr → Bool) (e : LinExpr) : Bool :=
  match r with
  | lt => below e
  | gt => below (-e)
  | le => !below (-e)
  | ge => !below e
  | eq => !below e && !below (-e)
  | ne => !(!below e && !below (-e))

theorem asks_opposite (r : Relation) (e : LinExpr) : r.opposite.asks e = r.asks e := by
  cases r <;> rfl

theorem judge_opposite (r : Relation) (below : LinExpr → Bool) (e : LinExpr) :
    r.opposite.judge below e = !r.judge below e := by
  cases r <;> simp [opposite, judge]

theorem mem_asks_converse {r : Relation} {e d : LinExpr} (he : e.Reduced) :
    d ∈ r.converse.asks (-e) ↔ d ∈ r.asks e := by
  cases r <;> simp [converse, asks, he.neg_neg, or_comm]

theorem judge_converse (r : Relation) (below : LinExpr → Bool) {e : LinExpr} (he : e.Reduced) :
    r.converse.judge below (-e) = r.judge below e := by
  cases r <;> simp [converse, judge, he.neg_neg, Bool.and_comm]

end Relation

/-! ### Plans that settle -/

namespace Plan

variable {α β : Type}

/-- A plan keeps the atoms there are; and once it has been followed, whoever follows it again, with
at least these atoms, comes to the same answer by way of the same functions and makes no atom. -/
structure Settles (plan : Plan α) : Prop where
  grows : ∀ t, (plan t).atoms.Extends t
  value_eq : ∀ t u, u.Extends (plan t).atoms → (plan u).value = (plan t).value
  atoms_eq : ∀ t u, u.Extends (plan t).atoms → (plan u).atoms = u
  made_eq : ∀ t u, u.Extends (plan t).atoms → (plan u).made = (plan t).made

namespace Settles

theorem pure (a : α) : Settles (Pure.pure a : Plan α) where
  grows _ _ _ h := h
  value_eq _ _ _ := rfl
  atoms_eq _ _ _ := rfl
  made_eq _ _ _ := rfl

theorem bind {plan : Plan α} {next : α → Plan β} (h : plan.Settles)
    (hnext : ∀ a, (next a).Settles) :
    (plan >>= next).Settles where
  grows t x e he := (hnext _).grows _ x e (h.grows t x e he)
  value_eq t u hu := by
    have hfirst : u.Extends (plan t).atoms := fun x e he => hu x e ((hnext _).grows _ x e he)
    rw [bind_value, h.value_eq t u hfirst, h.atoms_eq t u hfirst]
    exact (hnext _).value_eq _ u hu
  atoms_eq t u hu := by
    have hfirst : u.Extends (plan t).atoms := fun x e he => hu x e ((hnext _).grows _ x e he)
    rw [bind_atoms, h.value_eq t u hfirst, h.atoms_eq t u hfirst]
    exact (hnext _).atoms_eq _ u hu
  made_eq t u hu := by
    have hfirst : u.Extends (plan t).atoms := fun x e he => hu x e ((hnext _).grows _ x e he)
    rw [bind_made, h.value_eq t u hfirst, h.atoms_eq t u hfirst, h.made_eq t u hfirst]
    exact congrArg ((plan t).made ∪ ·) ((hnext _).made_eq _ u hu)

theorem ite {p : Prop} [Decidable p] {yes no : Plan α} (hyes : yes.Settles) (hno : no.Settles) :
    (if p then yes else no).Settles := by
  split
  · exact hyes
  · exact hno

theorem make (f : Condition) : (Plan.make f).Settles where
  grows _ _ _ h := h
  value_eq _ _ _ := rfl
  atoms_eq _ _ _ := rfl
  made_eq _ _ _ := rfl

/-- The number of an atom stays what it has become. -/
theorem atom (e : LinExpr) : (Plan.atom e).Settles where
  grows t := t.extends_number e
  value_eq t u hu := by
    have hnumber : u.number e = ((t.number e).1, u) := AtomTable.number_of_extends hu
    show (fun a : Nat → Bool => a (u.number e).1) = _
    rw [hnumber]
    rfl
  atoms_eq t u hu := by
    have hnumber : u.number e = ((t.number e).1, u) := AtomTable.number_of_extends hu
    show (u.number e).2 = u
    rw [hnumber]
  made_eq t u hu := by
    have hnumber : u.number e = ((t.number e).1, u) := AtomTable.number_of_extends hu
    show {fun a : Nat → Bool => a (u.number e).1} = _
    rw [hnumber]
    rfl

theorem collect {plan : α → Plan (List Piece)} (h : ∀ a, (plan a).Settles) :
    ∀ as, (Plan.collect plan as).Settles
  | [] => pure _
  | a :: as => (h a).bind fun _ => (collect h as).bind fun _ => pure _

theorem foldlM {plan : β → α → Plan β} (h : ∀ b a, (plan b a).Settles) (as : List α) :
    ∀ b, (as.foldlM plan b).Settles := by
  induction as with
  | nil => exact fun b => pure b
  | cons a as ih =>
    intro b
    rw [List.foldlM_cons]
    exact (h b a).bind ih

end Settles

theorem belowZero_settles (e : LinExpr) : (belowZero e).Settles :=
  Settles.ite (Settles.pure _) (Settles.atom _)

theorem complement_settles {plan : Plan Condition} (h : plan.Settles) : (complement plan).Settles :=
  h.bind fun _ => Settles.pure _

theorem isZero_settles (e : LinExpr) : (isZero e).Settles :=
  (belowZero_settles e).bind fun _ => (belowZero_settles _).bind fun _ => Settles.make _

theorem relate_settles (r : Relation) (e : LinExpr) : (relate r e).Settles := by
  cases r with
  | lt => exact belowZero_settles e
  | gt => exact belowZero_settles _
  | le => exact complement_settles (belowZero_settles _)
  | ge => exact complement_settles (belowZero_settles e)
  | eq => exact isZero_settles e
  | ne => exact complement_settles (isZero_settles e)

theorem pieceUnder_settles (f g : Condition) (e : LinExpr) : (pieceUnder f g e).Settles :=
  (Settles.make _).bind fun _ => Settles.pure _

theorem splitSigns_settles (ps : List Piece) : (splitSigns ps).Settles :=
  Settles.collect (fun _ => (belowZero_settles _).bind fun _ => (pieceUnder_settles _ _ _).bind
    fun _ => (pieceUnder_settles _ _ _).bind fun _ => Settles.pure _) ps

theorem comparePieces_settles (r : Relation) (p : Piece) (f : Condition) (q : Piece) :
    (comparePieces r p f q).Settles := by
  refine (Settles.make _).bind fun guard => ?_
  split
  · exact Settles.pure f
  · exact (relate_settles _ _).bind fun _ => (Settles.make _).bind fun _ => Settles.make _

theorem compareAll_settles (r : Relation) (ps qs : List Piece) : (compareAll r ps qs).Settles :=
  Settles.foldlM (fun _ _ => Settles.foldlM (fun _ _ => comparePieces_settles _ _ _ _) qs _) ps _

theorem joinFrom_settles (op : Bool → Bool → Bool) (gs : List Condition) :
    ∀ f, (joinFrom op f gs).Settles := by
  induction gs with
  | nil => exact fun f => Settles.pure f
  | cons g gs ih => exact fun f => (Settles.make _).bind ih

end Plan

open Plan

mutual

/-- The outline of a term settles. -/
theorem Term.outline_settles (a : Term) : a.outline.Settles := by
  cases a with
  | var x => exact Settles.pure _
  | const c => exact Settles.pure _
  | add a b =>
    exact a.outline_settles.bind fun _ => b.outline_settles.bind fun _ =>
      Settles.collect (fun _ => Settles.collect (fun _ => pieceUnder_settles _ _ _) _) _
  | sub a b =>
    exact a.outline_settles.bind fun _ => b.outline_settles.bind fun _ =>
      Settles.collect (fun _ => Settles.collect (fun _ => pieceUnder_settles _ _ _) _) _
  | neg a => exact a.outline_settles.bind fun _ => Settles.pure _
  | scale factor a => exact a.outline_settles.bind fun _ => Settles.pure _
  | abs a => exact a.outline_settles.bind fun _ => splitSigns_settles _
  | ite c a b =>
    exact c.outline_settles.bind fun _ => a.outline_settles.bind fun _ =>
      (Settles.collect (fun _ => pieceUnder_settles _ _ _) _).bind fun _ =>
        b.outline_settles.bind fun _ =>
          (Settles.collect (fun _ => pieceUnder_settles _ _ _) _).bind fun _ => Settles.pure _

/-- The outline of a formula settles. -/
theorem Formula.outline_settles (f : Formula) : f.outline.Settles := by
  cases f with
  | true => exact Settles.pure _
  | false => exact Settles.pure _
  | compare a r b =>
    exact a.outline_settles.bind fun _ => b.outline_settles.bind fun _ => compareAll_settles r _ _
  | not f => exact complement_settles f.outline_settles
  | and fs => exact (Formula.outlineAll_settles fs).bind fun gs => joinFrom_settles and gs _
  | or fs => exact (Formula.outlineAll_settles fs).bind fun gs => joinFrom_settles or gs _
  | implies f g =>
    exact f.outline_settles.bind fun _ => g.outline_settles.bind fun _ => Settles.make _
  | ite c f g =>
    exact c.outline_settles.bind fun _ => f.outline_settles.bind fun _ =>
      g.outline_settles.bind fun _ => Settles.make _

theorem Formula.outlineAll_settles (fs : List Formula) : (Formula.outlineAll fs).Settles := by
  cases fs with
  | nil => exact Settles.pure _
  | cons f fs =>
    exact f.outline_settles.bind fun _ => (Formula.outlineAll_settles fs).bind fun _ =>
      Settles.pure _

end

/-! ### Questions that have been asked -/

namespace AtomTable

/-- The table can tell whether an expression is below zero without a further atom. -/
def Knows (t : AtomTable) (e : LinExpr) : Prop := (belowZero e t).atoms = t

/-- Whether an expression is below zero, when the atoms have the truth values `x`. -/
def below (t : AtomTable) (x : Nat → Bool) (e : LinExpr) : Bool := (belowZero e t).value x

/-- The table can compare the values of all pieces that may be meant together. -/
def KnowsAll (t : AtomTable) (r : Relation) (ps qs : List Piece) : Prop :=
  ∀ p ∈ ps, ∀ q ∈ qs, (∃ x, (p.guard x && q.guard x) = true) →
    ∀ e ∈ r.asks (p.value - q.value), t.Knows e

variable {t u : AtomTable} {e : LinExpr} {r : Relation} {ps qs : List Piece}

/-- A larger table knows as much, and gives the same answers. -/
theorem Knows.mono (h : t.Knows e) (hext : u.Extends t) : u.Knows e :=
  (belowZero_settles e).atoms_eq t u (by rwa [h])

theorem KnowsAll.mono (h : t.KnowsAll r ps qs) (hext : u.Extends t) : u.KnowsAll r ps qs :=
  fun p hp q hq hmeet e he => (h p hp q hq hmeet e he).mono hext

/-- A question that has been asked can be answered. -/
theorem knows_belowZero (e : LinExpr) (t : AtomTable) : (belowZero e t).atoms.Knows e :=
  (belowZero_settles e).atoms_eq t _ fun _ _ h => h

end AtomTable

namespace Plan

variable {t u : AtomTable} {e : LinExpr} {r : Relation} {ps qs : List Piece}

theorem knows_isZero (e : LinExpr) (t : AtomTable) :
    (isZero e t).atoms.Knows e ∧ (isZero e t).atoms.Knows (-e) := by
  refine ⟨?_, AtomTable.knows_belowZero (-e) _⟩
  exact (AtomTable.knows_belowZero e t).mono ((belowZero_settles (-e)).grows _)

/-- A comparison with zero asks its questions. -/
theorem knows_relate (r : Relation) (e : LinExpr) (t : AtomTable) :
    ∀ d ∈ r.asks e, (relate r e t).atoms.Knows d := by
  cases r with
  | lt => exact List.forall_mem_singleton.2 (AtomTable.knows_belowZero e t)
  | gt => exact List.forall_mem_singleton.2 (AtomTable.knows_belowZero (-e) t)
  | le => exact List.forall_mem_singleton.2 (AtomTable.knows_belowZero (-e) t)
  | ge => exact List.forall_mem_singleton.2 (AtomTable.knows_belowZero e t)
  | eq =>
    obtain ⟨hbelow, habove⟩ := knows_isZero e t
    exact List.forall_mem_cons.2 ⟨hbelow, List.forall_mem_singleton.2 habove⟩
  | ne =>
    obtain ⟨hbelow, habove⟩ := knows_isZero e t
    exact List.forall_mem_cons.2 ⟨hbelow, List.forall_mem_singleton.2 habove⟩

theorem isZero_of_knows (h : t.Knows e) (h' : t.Knows (-e)) :
    (isZero e t).atoms = t ∧
      (isZero e t).value = fun x => !t.below x e && !t.below x (-e) := by
  unfold AtomTable.Knows at h h'
  have hatoms : (isZero e t).atoms = (belowZero (-e) (belowZero e t).atoms).atoms := rfl
  have hvalue : (isZero e t).value = fun x => !(belowZero e t).value x &&
      !(belowZero (-e) (belowZero e t).atoms).value x := rfl
  rw [h] at hatoms hvalue
  exact ⟨hatoms.trans h', hvalue⟩

/-- A comparison with zero whose questions can be answered makes no atom. -/
theorem relate_of_knows (h : ∀ d ∈ r.asks e, t.Knows d) :
    (relate r e t).atoms = t ∧ (relate r e t).value = fun x => r.judge (t.below x) e := by
  cases r with
  | lt => exact ⟨h e (by simp [Relation.asks]), rfl⟩
  | gt => exact ⟨h (-e) (by simp [Relation.asks]), rfl⟩
  | le => exact ⟨h (-e) (by simp [Relation.asks]), rfl⟩
  | ge => exact ⟨h e (by simp [Relation.asks]), rfl⟩
  | eq =>
    exact isZero_of_knows (h e (by simp [Relation.asks])) (h (-e) (by simp [Relation.asks]))
  | ne =>
    obtain ⟨hatoms, hvalue⟩ :=
      isZero_of_knows (h e (by simp [Relation.asks])) (h (-e) (by simp [Relation.asks]))
    refine ⟨hatoms, ?_⟩
    show (fun x => !(isZero e t).value x) = _
    rw [hvalue]
    rfl

/-! ### Comparing pieces -/

/-- Whatever is made for a member of a list is still there at the end. -/
theorem extends_of_mem_foldlM {α β : Type} {plan : β → α → Plan β}
    (h : ∀ b a, (plan b a).Settles) {as : List α} {a : α} (ha : a ∈ as) (b : β) (t : AtomTable) :
    ∃ c u, (as.foldlM plan b t).atoms.Extends (plan c a u).atoms := by
  induction as generalizing b t with
  | nil => cases ha
  | cons d as ih =>
    rw [List.foldlM_cons]
    rcases List.mem_cons.1 ha with rfl | ha
    · exact ⟨b, t, (Settles.foldlM h as _).grows _⟩
    · exact ih ha _ _

/-- Pieces that are never meant together are not compared. -/
theorem comparePieces_of_never {p q : Piece} (h : ∀ x, (p.guard x && q.guard x) = false)
    (r : Relation) (f : Condition) (t : AtomTable) :
    (comparePieces r p f q t).atoms = t ∧ (comparePieces r p f q t).value = f :=
  ⟨congrArg (fun plan : Plan Condition => (plan t).atoms) (if_pos h),
    congrArg (fun plan : Plan Condition => (plan t).value) (if_pos h)⟩

open Classical in
/-- For all others it is asked how the difference of their values stands to zero. -/
theorem comparePieces_of_meet {p q : Piece} (h : ∃ x, (p.guard x && q.guard x) = true)
    (r : Relation) (f : Condition) (t : AtomTable) :
    (comparePieces r p f q t).atoms = (relate r (p.value - q.value) t).atoms ∧
      (comparePieces r p f q t).value = fun x =>
        f x || (p.guard x && q.guard x && (relate r (p.value - q.value) t).value x) := by
  have hsome : ¬ ∀ x, (p.guard x && q.guard x) = false := by simpa using h
  let compared : Plan Condition := do
    let related ← relate r (p.value - q.value)
    let piece ← make fun x => p.guard x && q.guard x && related x
    make fun x => f x || piece x
  have hbranch : (if ∀ x, (p.guard x && q.guard x) = false then pure f else compared) = compared :=
    if_neg hsome
  have hatoms := congrArg (fun plan : Plan Condition => (plan t).atoms) hbranch
  have hvalue := congrArg (fun plan : Plan Condition => (plan t).value) hbranch
  exact ⟨hatoms, hvalue⟩

/-- A comparison of all pieces asks the questions of all pairs that may be meant together. -/
theorem knows_compareAll (r : Relation) (ps qs : List Piece) (t : AtomTable) :
    (compareAll r ps qs t).atoms.KnowsAll r ps qs := by
  intro p hp q hq hmeet e he
  have hpieces : ∀ p f q, (comparePieces r p f q).Settles :=
    fun p f q => comparePieces_settles r p f q
  have hinner : ∀ f p, (qs.foldlM (comparePieces r p) f).Settles :=
    fun f p => Settles.foldlM (hpieces p) qs f
  obtain ⟨f, u, hext⟩ := extends_of_mem_foldlM hinner hp (fun _ => false) t
  obtain ⟨g, w, hext'⟩ := extends_of_mem_foldlM (hpieces p) hq f u
  rw [(comparePieces_of_meet hmeet r g w).1] at hext'
  exact ((knows_relate r _ w e he).mono hext').mono hext

/-- Comparing two pieces whose questions can be answered makes no atom. -/
theorem comparePieces_of_knows {p q : Piece}
    (h : (∃ x, (p.guard x && q.guard x) = true) →
      ∀ e ∈ r.asks (p.value - q.value), t.Knows e) (f : Condition) :
    (comparePieces r p f q t).atoms = t ∧ (comparePieces r p f q t).value = fun x =>
      f x || (p.guard x && q.guard x && r.judge (t.below x) (p.value - q.value)) := by
  by_cases hmeet : ∃ x, (p.guard x && q.guard x) = true
  · obtain ⟨hatoms, hvalue⟩ := comparePieces_of_meet hmeet r f t
    obtain ⟨hatoms', hvalue'⟩ := relate_of_knows (h hmeet)
    exact ⟨hatoms.trans hatoms', by rw [hvalue, hvalue']⟩
  · have hnever : ∀ x, (p.guard x && q.guard x) = false := by simpa using hmeet
    obtain ⟨hatoms, hvalue⟩ := comparePieces_of_never hnever r f t
    refine ⟨hatoms, ?_⟩
    rw [hvalue]
    funext x
    rw [hnever, Bool.false_and, Bool.or_false]

/-- A loop each step of which makes no atom and adds a condition of its own. -/
theorem foldlM_of_adds {α : Type} {plan : Condition → α → Plan Condition} {added : α → Condition}
    {as : List α} (h : ∀ a ∈ as, ∀ f, (plan f a t).atoms = t ∧
      (plan f a t).value = fun x => f x || added a x) (f : Condition) :
    (as.foldlM plan f t).atoms = t ∧
      (as.foldlM plan f t).value = fun x => f x || as.any fun a => added a x := by
  induction as generalizing f with
  | nil => exact ⟨rfl, by funext x; exact (Bool.or_false _).symm⟩
  | cons a as ih =>
    obtain ⟨hatoms, hvalue⟩ := h a List.mem_cons_self f
    obtain ⟨hrest, hrestValue⟩ :=
      ih (fun d hd => h d (List.mem_cons_of_mem a hd)) fun x => f x || added a x
    rw [List.foldlM_cons, bind_atoms, bind_value, hatoms, hvalue]
    refine ⟨hrest, hrestValue.trans ?_⟩
    funext x
    rw [List.any_cons, Bool.or_assoc]

/-- A comparison whose questions can all be answered makes no atom, and says that some two pieces
are meant together and their values stand in the relation. -/
theorem compareAll_of_knows (h : t.KnowsAll r ps qs) :
    (compareAll r ps qs t).atoms = t ∧ (compareAll r ps qs t).value = fun x =>
      ps.any fun p => qs.any fun q =>
        p.guard x && q.guard x && r.judge (t.below x) (p.value - q.value) := by
  have hinner : ∀ p ∈ ps, ∀ f, (qs.foldlM (comparePieces r p) f t).atoms = t ∧
      (qs.foldlM (comparePieces r p) f t).value = fun x => f x || qs.any fun q =>
        p.guard x && q.guard x && r.judge (t.below x) (p.value - q.value) := fun p hp =>
    foldlM_of_adds fun q hq => comparePieces_of_knows (h p hp q hq)
  obtain ⟨hatoms, hvalue⟩ := foldlM_of_adds hinner fun _ => false
  refine ⟨hatoms, hvalue.trans ?_⟩
  funext x
  exact Bool.false_or _

/-! ### The pair of pieces that is meant -/

/-- Where one piece of either list is meant, what is asked of some pair is asked of this one. -/
theorem any_pairs {x : Nat → Bool} {p q : Piece} (hp : ps.filter (fun p => p.guard x) = [p])
    (hq : qs.filter (fun q => q.guard x) = [q]) (test : Piece → Piece → Bool) :
    (ps.any fun p => qs.any fun q => p.guard x && q.guard x && test p q) = test p q := by
  have hinner : ∀ p : Piece, (qs.any fun q => p.guard x && q.guard x && test p q) =
      (p.guard x && test p q) := by
    intro p
    cases p.guard x with
    | true => simp only [Bool.true_and, ← List.any_filter, hq, List.any_cons, List.any_nil,
        Bool.or_false]
    | false => simp
  simp only [hinner, ← List.any_filter, hp, List.any_cons, List.any_nil, Bool.or_false]

/-- A comparison whose questions can all be answered has the answer of the pair that is meant. -/
theorem compareAll_of_picked (h : t.KnowsAll r ps qs) {x : Nat → Bool} {p q : Piece}
    (hp : ps.filter (fun p => p.guard x) = [p]) (hq : qs.filter (fun q => q.guard x) = [q]) :
    (compareAll r ps qs t).value x = r.judge (t.below x) (p.value - q.value) := by
  rw [(compareAll_of_knows h).2]
  exact any_pairs hp hq fun p q => r.judge (t.below x) (p.value - q.value)

/-- The opposite comparison, after the comparison itself: it makes no atom, and its condition is the
opposite one. -/
theorem compareAll_opposite (hps : Tally (fun _ => 1) ps) (hqs : Tally (fun _ => 1) qs)
    (hext : u.Extends (compareAll r ps qs t).atoms) :
    (compareAll r.opposite ps qs u).atoms = u ∧
      ∀ x, (compareAll r.opposite ps qs u).value x = !(compareAll r ps qs t).value x := by
  have hknows : u.KnowsAll r ps qs := (knows_compareAll r ps qs t).mono hext
  have hknows' : u.KnowsAll r.opposite ps qs := fun p hp q hq hmeet e he =>
    hknows p hp q hq hmeet e (by rwa [Relation.asks_opposite] at he)
  refine ⟨(compareAll_of_knows hknows').1, fun x => ?_⟩
  obtain ⟨p, hp⟩ := exists_filter_eq_singleton (hps.count_eq x)
  obtain ⟨q, hq⟩ := exists_filter_eq_singleton (hqs.count_eq x)
  rw [← (compareAll_settles r ps qs).value_eq t u hext, compareAll_of_picked hknows hp hq,
    compareAll_of_picked hknows' hp hq, Relation.judge_opposite]

/-- The comparison read from the other side, after the comparison itself: it makes no atom, and its
condition is the same. -/
theorem compareAll_converse (hps : Tally (fun _ => 1) ps) (hqs : Tally (fun _ => 1) qs)
    (hext : u.Extends (compareAll r ps qs t).atoms) :
    (compareAll r.converse qs ps u).atoms = u ∧
      ∀ x, (compareAll r.converse qs ps u).value x = (compareAll r ps qs t).value x := by
  -- the difference is turned around
  have hturned : ∀ p ∈ ps, ∀ q ∈ qs, q.value - p.value = -(p.value - q.value) :=
    fun p hp q hq => ((hps.reduced p hp).neg_sub (hqs.reduced q hq)).symm
  have hreduced : ∀ p ∈ ps, ∀ q : Piece, (p.value - q.value).Reduced :=
    fun p hp q => (hps.reduced p hp).sub q.value
  have hknows : u.KnowsAll r ps qs := (knows_compareAll r ps qs t).mono hext
  have hknows' : u.KnowsAll r.converse qs ps := by
    intro q hq p hp hmeet e he
    rw [hturned p hp q hq, Relation.mem_asks_converse (hreduced p hp q)] at he
    obtain ⟨x, hx⟩ := hmeet
    exact hknows p hp q hq ⟨x, by rw [Bool.and_comm, hx]⟩ e he
  refine ⟨(compareAll_of_knows hknows').1, fun x => ?_⟩
  obtain ⟨p, hp⟩ := exists_filter_eq_singleton (hps.count_eq x)
  obtain ⟨q, hq⟩ := exists_filter_eq_singleton (hqs.count_eq x)
  have hpmem : p ∈ ps := (List.mem_filter.1 (hp ▸ List.mem_singleton_self p)).1
  have hqmem : q ∈ qs := (List.mem_filter.1 (hq ▸ List.mem_singleton_self q)).1
  rw [← (compareAll_settles r ps qs).value_eq t u hext, compareAll_of_picked hknows hp hq,
    compareAll_of_picked hknows' hq hp, hturned p hpmem q hqmem,
    Relation.judge_converse _ _ (hreduced p hpmem q)]

end Plan

/-! ### Comparisons of terms -/

/-- What has been followed for a comparison is there for every larger table. -/
theorem Formula.outline_compare (a b : Term) (r : Relation) {t u : AtomTable}
    (hext : u.Extends ((Formula.compare a r b).outline t).atoms) :
    ∃ ps qs w, Tally (fun _ => 1) ps ∧ Tally (fun _ => 1) qs ∧
      (a.outline u).value = ps ∧ (a.outline u).atoms = u ∧
      (b.outline u).value = qs ∧ (b.outline u).atoms = u ∧
      u.Extends (compareAll r ps qs w).atoms ∧
      ((Formula.compare a r b).outline t).value = (compareAll r ps qs w).value := by
  -- the tables there are after the first term, and after the second one
  have hboth : u.Extends (b.outline (a.outline t).atoms).atoms := fun x e he =>
    hext x e ((compareAll_settles r _ _).grows _ x e he)
  have hfirst : u.Extends (a.outline t).atoms := fun x e he =>
    hboth x e (b.outline_settles.grows _ x e he)
  exact ⟨_, _, _, a.outline_tally t, b.outline_tally _, a.outline_settles.value_eq t u hfirst,
    a.outline_settles.atoms_eq t u hfirst, b.outline_settles.value_eq _ u hboth,
    b.outline_settles.atoms_eq _ u hboth, hext, rfl⟩

/-- A comparison of two terms follows the outlines of both. -/
theorem Formula.outline_compare_of_settled {a b : Term} {u : AtomTable} {ps qs : List Piece}
    (ha : (a.outline u).value = ps) (ha' : (a.outline u).atoms = u)
    (hb : (b.outline u).value = qs) (hb' : (b.outline u).atoms = u) (r : Relation) :
    ((Formula.compare a r b).outline u).atoms = (compareAll r ps qs u).atoms ∧
      ((Formula.compare a r b).outline u).value = (compareAll r ps qs u).value := by
  subst ha hb
  have hatoms : ((Formula.compare a r b).outline u).atoms =
      (compareAll r (a.outline u).value (b.outline (a.outline u).atoms).value
        (b.outline (a.outline u).atoms).atoms).atoms := rfl
  have hvalue : ((Formula.compare a r b).outline u).value =
      (compareAll r (a.outline u).value (b.outline (a.outline u).atoms).value
        (b.outline (a.outline u).atoms).atoms).value := rfl
  rw [ha', hb'] at hatoms hvalue
  exact ⟨hatoms, hvalue⟩

variable {a b : Term} {r : Relation} {t u : AtomTable}

/-- The outline of the opposite comparison. -/
theorem Formula.outline_opposite (hext : u.Extends ((Formula.compare a r b).outline t).atoms) :
    ((Formula.compare a r.opposite b).outline u).atoms = u ∧
      ∀ x, ((Formula.compare a r.opposite b).outline u).value x =
        !((Formula.compare a r b).outline t).value x := by
  obtain ⟨ps, qs, w, hps, hqs, ha, ha', hb, hb', hgrown, hvalue⟩ :=
    Formula.outline_compare a b r hext
  obtain ⟨hatoms, hsame⟩ := Formula.outline_compare_of_settled ha ha' hb hb' r.opposite
  rw [hatoms, hsame, hvalue]
  exact compareAll_opposite hps hqs hgrown

/-- The outline of the comparison read from the other side. -/
theorem Formula.outline_converse (hext : u.Extends ((Formula.compare a r b).outline t).atoms) :
    ((Formula.compare b r.converse a).outline u).atoms = u ∧
      ∀ x, ((Formula.compare b r.converse a).outline u).value x =
        ((Formula.compare a r b).outline t).value x := by
  obtain ⟨ps, qs, w, hps, hqs, ha, ha', hb, hb', hgrown, hvalue⟩ :=
    Formula.outline_compare a b r hext
  obtain ⟨hatoms, hsame⟩ := Formula.outline_compare_of_settled hb hb' ha ha' r.converse
  rw [hatoms, hsame, hvalue]
  exact compareAll_converse hps hqs hgrown

/-! ### Encodings -/

namespace Skeleton

variable {s : Skeleton} {q : Ref} {f : Condition}

/-- A formula that needs no further atom and whose condition a reference stands for already is
encoded as this reference. -/
theorem encode_of_stands (wf : s.WellFormed fun _ => True) (hq : s.Stands q f) {g : Formula}
    (hatoms : (g.outline s.atoms).atoms = s.atoms)
    (hvalue : ∀ x, (g.outline s.atoms).value x = f x) :
    Step.Yields g.encode s fun p t => p = q ∧ t.atoms = s.atoms := by
  refine (g.encode_realizes wf fun _ _ => trivial).yields.imp fun p t hext ⟨wft, heq, hp, _⟩ =>
    ⟨?_, heq.trans hatoms⟩
  have hsame : (g.outline s.atoms).value = f := funext hvalue
  rw [hsame] at hp
  exact Manager.Denotes.unique wft.manager hp (hq.mono wf hext)

/-- Complementary and mirrored comparisons share one encoding.  In every skeleton that a run leads
to, when a comparison has been encoded, its opposite is encoded as the complement of the same
reference, and the comparison read from the other side as the reference itself; neither makes an
atom.  This is so right after the comparison, and at any later time. -/
theorem Attained.encode_counterparts (h : s.Attained) (a : Term) (r : Relation) (b : Term)
    (hfit : ((Formula.compare a r b).encode.perform s).2.manager.Addressable) :
    ∃ q t, (Formula.compare a r b).encode.perform s = (.ok q, t) ∧
      ∀ u : Skeleton, u.Attained → u.Extends t →
        (Step.Yields (Formula.compare a r.opposite b).encode u fun p w =>
          p = -q ∧ w.atoms = u.atoms) ∧
        Step.Yields (Formula.compare b r.converse a).encode u fun p w =>
          p = q ∧ w.atoms = u.atoms := by
  have wf := h.wellFormed ((Formula.compare a r b).encode_grows.addressable hfit)
  obtain ⟨q, t, hrun, -, wft, hatoms, hq, -⟩ :=
    ((Formula.compare a r b).encode_realizes wf fun _ _ => trivial).yields hfit
  refine ⟨q, t, hrun, fun u hu hext => ?_⟩
  have hgrown : u.atoms.Extends ((Formula.compare a r b).outline s.atoms).atoms := by
    rw [← hatoms]
    exact hext.atoms
  obtain ⟨hopposite, hopposite'⟩ := Formula.outline_opposite hgrown
  obtain ⟨hconverse, hconverse'⟩ := Formula.outline_converse hgrown
  constructor
  · refine Step.Yields.of_addressable (Formula.encode_grows _) fun hfit => ?_
    have hstands := (hq.mono wft hext).neg
    exact encode_of_stands (hu.wellFormed hfit) hstands hopposite hopposite'
  · refine Step.Yields.of_addressable (Formula.encode_grows _) fun hfit => ?_
    have hstands := hq.mono wft hext
    exact encode_of_stands (hu.wellFormed hfit) hstands hconverse hconverse'

/-- An absolute value is compared with a conditional: `|x| > (if x < y then 1 else y)` after
`|x| ≤ (if x < y then 1 else y)`, and then `(if x < y then 1 else y) ≥ |x|`. -/
theorem encode_counterparts_abs_ite :
    ∃ (s t u w : Skeleton) (q : Ref), create 0 .closed = .ok s ∧
      (Formula.compare (.abs (.var "x")) .le
        (.ite ((Term.var "x").lt (.var "y")) (.const 1) (.var "y"))).encode.perform s =
        (.ok q, t) ∧
      (Formula.compare (.abs (.var "x")) .gt
        (.ite ((Term.var "x").lt (.var "y")) (.const 1) (.var "y"))).encode.perform t =
        (.ok (-q), u) ∧ u.atoms = t.atoms ∧
      (Formula.compare (.ite ((Term.var "x").lt (.var "y")) (.const 1) (.var "y")) .ge
        (.abs (.var "x"))).encode.perform u = (.ok q, w) ∧ w.atoms = u.atoms := by
  have hcreate : create 0 .closed = .ok
      ⟨⟨((HashCons.empty 0).add Node.terminal).2, ComputedTable.empty 0, .closed⟩, .empty⟩ := rfl
  have hreached := Attained.reached (Reached.create hcreate)
  obtain ⟨q, t, hrun, hlater⟩ := hreached.encode_counterparts (.abs (.var "x")) .le
    (.ite ((Term.var "x").lt (.var "y")) (.const 1) (.var "y")) (by decide +kernel)
  have hattained := hreached.encode (.compare (.abs (.var "x")) .le
    (.ite ((Term.var "x").lt (.var "y")) (.const 1) (.var "y")))
  obtain rfl : _ = t := congrArg Prod.snd hrun
  obtain ⟨p, u, hopposite, hext, rfl, hatoms⟩ :=
    (hlater _ hattained (Extends.refl _)).1 (show Manager.Addressable _ by decide +kernel)
  have hattained' := hattained.encode (.compare (.abs (.var "x")) .gt
    (.ite ((Term.var "x").lt (.var "y")) (.const 1) (.var "y")))
  obtain rfl : _ = u := congrArg Prod.snd hopposite
  obtain ⟨p, w, hconverse, -, rfl, hatoms'⟩ :=
    (hlater _ hattained' hext).2 (show Manager.Addressable _ by decide +kernel)
  exact ⟨_, _, _, w, p, hcreate, hrun, hopposite, hatoms, hconverse, hatoms'⟩

end Skeleton

end BrakeCheck
