import BrakeCheck.Proofs.Extent
import BrakeCheck.Proofs.Variables
import Mathlib.Data.Fintype.Card

/-!
# Stores that keep to a family of functions

Every node stands for a function of its own, so a store has as many nodes as it has functions up to
complements.  The nodes that an operation makes stand for what is left of its result when the first
variables have values.  If the functions of a store are among those of another one, and so are the
results of the operations, the store stays no larger than the other one, whatever the operations
are and whatever is left in the computed table.

This keeps the width of the references out of a comparison of two runs: the contracts of the
operations hold as long as all nodes can be referred to, and a run that makes no functions but those
of another one needs no more nodes.

## Main definitions

* `Manager.Stores` — some reference of a store stands for a function.
* `Manager.Inside` — a well-formed store all functions of which belong to a family.
* `Manager.Scope` — a family with complements and subfunctions that references have room for.

## Main statements

* `Manager.scope_of_addressable` — the functions of a store are a scope.
* `Manager.ite_stays`, `Manager.mkCube_stays` — operations stay in a scope to which their results
  belong.
-/

namespace BrakeCheck

/-- A Boolean function of the variables. -/
abbrev Condition := (Nat → Bool) → Bool

/-- Literals over distinct variables hold together somewhere. -/
theorem Literal.exists_allHold {ls : List Literal} (h : ls.Pairwise fun l k => l.var ≠ k.var) :
    ∃ a, allHold ls a = true := by
  induction ls with
  | nil => exact ⟨fun _ => true, rfl⟩
  | cons l ls ih =>
    obtain ⟨hfirst, hrest⟩ := List.pairwise_cons.1 h
    obtain ⟨a, ha⟩ := ih hrest
    refine ⟨Function.update a l.var l.isPositive, ?_⟩
    have hlater : allHold ls (Function.update a l.var l.isPositive) = allHold ls a :=
      allHold_congr fun k hk => Function.update_of_ne (hfirst k hk).symm _ a
    rw [allHold_cons, hlater, ha, holds, Function.update_self]
    simp

/-- A family has a function however it is described. -/
theorem mem_of_eq {F : Set Condition} {f g : Condition} (hf : f ∈ F) (h : ∀ a, f a = g a) :
    g ∈ F :=
  funext h ▸ hf

namespace Manager

variable {α : Type} {m t : Manager} {F : Set Condition}

/-! ### Families of functions -/

/-- Some reference of the store stands for the function. -/
def Stores (m : Manager) (f : Condition) : Prop := ∃ r, m.Denotes r f

/-- The store is well-formed, and all its functions belong to the family `F`. -/
structure Inside (F : Set Condition) (m : Manager) : Prop where
  wf : m.WellFormed
  mem : ∀ r, m.Has r → (m.holds · r) ∈ F

/-- With every function the family has its complement and its subfunctions, and references have
room for all stores inside it. -/
structure Scope (F : Set Condition) : Prop where
  neg : ∀ f ∈ F, (fun a => !f a) ∈ F
  subfunction : ∀ f ∈ F, ∀ g, Subfunction f g → g ∈ F
  fits : ∀ m : Manager, m.Inside F → m.Addressable

theorem Stores.mono {f : Condition} (wf : m.WellFormed) (hext : t.Extends m) (h : m.Stores f) :
    t.Stores f := by
  obtain ⟨r, hr⟩ := h
  exact ⟨r, hr.mono wf hext⟩

theorem Inside.congr (h : m.Inside F) (wft : t.WellFormed) (hnodes : t.nodes = m.nodes) :
    t.Inside F := by
  refine ⟨wft, fun r hr => ?_⟩
  simp only [holds_congr hnodes]
  exact h.mem r (hr.congr hnodes.symm)

theorem Inside.withJournal (h : m.Inside F) (journal : Journal) :
    ({ m with journal } : Manager).Inside F :=
  h.congr (h.wf.withJournal journal) rfl

/-- The family has both signs of a function, or neither. -/
theorem Scope.flip (hF : Scope F) {f : Condition} (hf : f ∈ F) (flip : Bool) :
    (fun a => flip ^^ f a) ∈ F := by
  cases flip with
  | false => simpa only [Bool.false_xor] using hf
  | true => simpa only [Bool.true_xor] using hF.neg f hf

/-! ### The functions of a store -/

/-- A store is inside the family of its own functions. -/
theorem WellFormed.inside_stores (wf : m.WellFormed) : m.Inside {f | m.Stores f} :=
  ⟨wf, fun r hr => ⟨r, hr, fun _ => rfl⟩⟩

/-- The first store has the constants alone, which are stored everywhere. -/
theorem inside_of_create {bits : Nat} {journal : Journal} (h : create bits journal = .ok m)
    (wft : t.WellFormed) : m.Inside {f | t.Stores f} := by
  have hsize : m.nodes.size = 1 := by
    rw [eq_of_create h]
    rfl
  refine ⟨wellFormed_of_create h, fun r hr => ?_⟩
  have hterminal : r.index = Ref.terminal := by
    have hpos := hr.index_pos
    have hle := hr.index_le
    show r.index = 1
    omega
  rcases (eq_constant_iff r).2 hterminal with rfl | rfl
  · exact ⟨.zero, wft.has_zero, fun a => by rw [holds_zero, holds_zero]⟩
  · exact ⟨.one, wft.has_one, fun a => by rw [holds_one, holds_one]⟩

/-- A store has no more nodes than there are functions in a list, if up to complements all of its own
functions are in the list: different nodes stand for different functions, and regular references for
functions that are no complements of one another. -/
theorem Inside.size_le_length (h : m.Inside F) {fs : List Condition}
    (hF : ∀ g ∈ F, ∃ f ∈ fs, ∃ flip, ∀ a, g a = (flip ^^ f a)) : m.nodes.size ≤ fs.length := by
  have hhas : ∀ i : Fin m.nodes.size, m.Has ⟨i + 1, false⟩ := fun i =>
    HashCons.isSome_value?_iff.2 ⟨Nat.succ_pos _, i.isLt⟩
  have hnode : ∀ i : Fin m.nodes.size, ∃ j : Fin fs.length, ∃ flip,
      ∀ a, m.holds a ⟨i + 1, false⟩ = (flip ^^ fs[j] a) := by
    intro i
    obtain ⟨f, hf, flip, hmeaning⟩ := hF _ (h.mem _ (hhas i))
    obtain ⟨j, hj, rfl⟩ := List.getElem_of_mem hf
    exact ⟨⟨j, hj⟩, flip, hmeaning⟩
  choose index flip hindex using hnode
  have hinjective : Function.Injective index := by
    intro i j hij
    -- both functions are true where all variables are
    have hi := hindex i fun _ => true
    have hj := hindex j fun _ => true
    rw [holds_true h.wf (hhas i)] at hi
    rw [holds_true h.wf (hhas j), ← hij] at hj
    have hflip : flip i = flip j := Bool.xor_left_inj.1 (hi.symm.trans hj)
    have heq : (⟨i + 1, false⟩ : Ref) = ⟨j + 1, false⟩ :=
      eq_of_holds_eq h.wf (hhas i) (hhas j) fun a => by rw [hindex, hindex, hij, hflip]
    exact Fin.ext (Nat.succ.inj (congrArg Ref.index heq))
  simpa using Fintype.card_le_of_injective index hinjective

/-- The functions of the regular references of a store. -/
def regulars (m : Manager) : List Condition :=
  (List.range m.nodes.size).map fun i a => m.holds a ⟨i + 1, false⟩

theorem length_regulars (m : Manager) : m.regulars.length = m.nodes.size := by
  rw [regulars, List.length_map, List.length_range]

/-- Up to complements these are all functions of the store. -/
theorem Stores.mem_regulars {f : Condition} (h : m.Stores f) :
    ∃ g ∈ m.regulars, ∃ flip, ∀ a, f a = (flip ^^ g a) := by
  obtain ⟨⟨k, negated⟩, hk, hmeaning⟩ := h
  obtain ⟨hpos, hle⟩ := HashCons.isSome_value?_iff.1 hk
  dsimp only at hpos hle
  refine ⟨_, List.mem_map_of_mem (List.mem_range.2 (show k - 1 < m.nodes.size by omega)), negated,
    fun a => ?_⟩
  rw [← hmeaning, Nat.sub_add_cancel hpos, ← holds_flipIf]
  cases negated <;> rfl

/-- A store whose functions are among those of another one has no more nodes. -/
theorem Inside.size_le (h : m.Inside {f | t.Stores f}) : m.nodes.size ≤ t.nodes.size := by
  rw [← t.length_regulars]
  exact h.size_le_length fun _ hg => hg.mem_regulars

/-- The functions of a store that can be addressed are a scope. -/
theorem scope_of_addressable (wft : t.WellFormed) (hfit : t.Addressable) :
    Scope {f | t.Stores f} where
  neg := by
    rintro f ⟨r, hr⟩
    exact ⟨-r, has_neg.2 hr.has, fun a => by rw [holds_neg, hr.meaning]⟩
  subfunction := by
    rintro f ⟨r, hr⟩ g ⟨k, a, hg⟩
    obtain ⟨q, -, hq, hmeaning⟩ := exists_reaches_of_fixing wft hr k a
    exact ⟨q, hq, fun x => by rw [hmeaning, hg]⟩
  fits m hm := Nat.lt_of_le_of_lt hm.size_le hfit

/-! ### Nodes -/

/-- A report has no part in it. -/
theorem stays_after_note (hm : m.Inside F) {level : Level} {origin : Origin} {text : Thunk String}
    {next : Unit → Step Manager α}
    (h : ∀ t : Manager, t.Inside F → t.nodes = m.nodes → Step.Stays (Inside F) (next ()) t) :
    Step.Stays (Inside F) (note level origin text >>= next) m :=
  Step.Ends.after rfl (Extends.refl m) (h _ (hm.withJournal _) rfl)

/-- A store with one more node is inside a scope to which the function of the node belongs. -/
theorem Inside.put (hF : Scope F) (hm : m.Inside F) {n : Node} (hn : m.Fits (m.nodes.size + 1) n)
    (hmade : (fun a => bif a n.var then m.holds a n.high else m.holds a n.low) ∈ F) :
    (m.put n).Inside F := by
  refine ⟨hm.wf.put hn, ?_⟩
  rintro ⟨i, negated⟩ hr
  have hext := put_extends m n
  obtain ⟨d, hd⟩ := Option.isSome_iff_exists.1 hr
  rcases HashCons.of_value?_put hd with ⟨rfl, rfl⟩ | hold
  · -- the new node
    have hlast : m.nodes.size + 1 ≠ Ref.terminal := by
      have hpos := hm.wf.has_one.index_pos
      have hle := hm.wf.has_one.index_le
      show m.nodes.size + 1 ≠ 1
      omega
    have hlow := hn.has_low (Nat.le_refl _)
    have hhigh := hn.has_high (Nat.le_refl _)
    refine mem_of_eq (hF.flip hmade negated) fun a => ?_
    rw [holds_node hlast hd hn.low_lt hn.high_lt, holds_of_extends hm.wf hext a hlow,
      holds_of_extends hm.wf hext a hhigh]
  · -- a node that has been there before
    have hhas : m.Has ⟨i, negated⟩ := Option.isSome_of_eq_some hold
    simp only [holds_of_extends hm.wf hext _ hhas]
    exact hm.mem _ hhas

theorem share_stays (hF : Scope F) (hm : m.Inside F) {v : Nat} {low high : Ref}
    (h : m.CanBranch v low high) (hregular : high.negated = false)
    (hmade : (fun a => bif a v then m.holds a high else m.holds a low) ∈ F) :
    Step.Stays (Inside F) (share v low high) m := by
  unfold share
  split
  · exact Step.Stays.pure hm low
  · next hne =>
    exact ⟨_, m.put ⟨v, low, high⟩, rfl, put_extends m _, hm.put hF (h.fits hregular hne) hmade⟩

theorem mkNode_stays (hF : Scope F) (hm : m.Inside F) {v : Nat} {low high : Ref}
    (h : m.CanBranch v low high)
    (hmade : (fun a => bif a v then m.holds a high else m.holds a low) ∈ F) :
    Step.Stays (Inside F) (mkNode v low high) m := by
  rw [mkNode_of_pos h.var_pos]
  refine stays_after_note hm fun t ht hnodes => ?_
  simp only [← holds_congr hnodes] at hmade
  split
  · next hneg =>
    refine stays_after_note ht fun u hu hnodes' => ?_
    have hregular : (-high).negated = false := by rw [Ref.neg_negated, hneg]; rfl
    refine (share_stays hF hu ((h.congr hnodes).congr hnodes').neg hregular ?_).bind
      fun r w _ hw => Step.Stays.pure hw _
    refine mem_of_eq (hF.neg _ hmade) fun a => ?_
    rw [holds_neg, holds_neg, holds_congr hnodes', holds_congr hnodes']
    cases a v <;> rfl
  · next hneg => exact share_stays hF ht (h.congr hnodes) (by simpa using hneg) hmade

theorem mkVar_stays (hF : Scope F) (hm : m.Inside F) {v : Nat} (hv : 0 < v)
    (hmade : (fun a => a v) ∈ F) : Step.Stays (Inside F) (mkVar v) m := by
  have hne : v ≠ 0 := by omega
  unfold mkVar
  simp only [hne, if_false]
  refine mkNode_stays hF hm
    ⟨hv, hm.wf.has_zero, hm.wf.has_one, below_zero m v, below_one m v⟩ ?_
  simpa using hmade

/-! ### Choices -/

/-- The two remaining choices describe subfunctions of what the choice describes. -/
theorem SplitsInto.subfunction (wf : m.WellFormed) {c : Choice} {v : Nat} {no yes : Choice}
    (h : m.SplitsInto c v no yes) :
    Subfunction (m.chooses · c) (m.chooses · no) ∧ Subfunction (m.chooses · c) (m.chooses · yes) := by
  have hlater : ∀ (value : Bool) (x : Nat → Bool) {d : Choice}, m.HasAll d → m.AllBelow v d →
      m.chooses (fixing v (fun _ => value) x) d = m.chooses x d := fun _ _ _ hall hbelow =>
    chooses_congr_of_allBelow wf (fun _ hu => fixing_of_lt hu) hall hbelow
  constructor
  · refine ⟨v, fun _ => false, fun x => ?_⟩
    show m.chooses x no = m.chooses (fixing v (fun _ => false) x) c
    rw [h.meaning, fixing_of_le (Nat.le_refl v), cond_false, hlater false x h.has_no h.below_no]
  · refine ⟨v, fun _ => true, fun x => ?_⟩
    show m.chooses x yes = m.chooses (fixing v (fun _ => true) x) c
    rw [h.meaning, fixing_of_le (Nat.le_refl v), cond_true, hlater true x h.has_yes h.below_yes]

/-- A choice whose result is not known stays in a scope to which the function that it describes
belongs, if the remaining choices do: their results are subfunctions of it. -/
theorem iteSplit_stays (hF : Scope F) (hm : m.Inside F) {c : Choice} (hall : m.HasAll c)
    (hsplit : c.shortcut = .split) (hmade : (m.chooses · c) ∈ F)
    (ih : ∀ d : Choice, d.height < c.height → ∀ t : Manager, t.Inside F → t.HasAll d →
      (t.chooses · d) ∈ F → Step.Stays (Inside F) (ite d) t) :
    Step.Stays (Inside F) (iteSplit c) m := by
  have hregular : (m.chooses · c.regular.1) ∈ F := by
    refine mem_of_eq (hF.flip hmade c.regular.2) fun a => ?_
    rw [← chooses_regular, ← Bool.xor_assoc, Bool.xor_self, Bool.false_xor]
  have htest : c.regular.1.test.index ≠ Ref.terminal := by
    rw [Choice.index_test_regular]
    exact Choice.test_of_shortcut_split hsplit
  obtain ⟨v, no, yes, hquery, hinto⟩ := split_spec hm.wf hall.regular htest
  refine Step.Ends.after_query hquery ?_
  have hltno : no.height < c.height := Choice.height_regular c ▸ hinto.height_no
  have hltyes : yes.height < c.height := Choice.height_regular c ▸ hinto.height_yes
  dsimp only
  rw [if_pos ⟨hltno, hltyes⟩]
  obtain ⟨hsubno, hsubyes⟩ := hinto.subfunction hm.wf
  have hno := hF.subfunction _ hregular _ hsubno
  have hyes := hF.subfunction _ hregular _ hsubyes
  -- the results of the two remaining choices
  refine ((ih no hltno m hm hinto.has_no hno).yields hF.fits (ite_spec hm.wf hinto.has_no)).bind
    fun low m1 hext1 h1 => ?_
  obtain ⟨hm1, wf1, hlow⟩ := h1
  have hhasyes1 := hinto.has_yes.mono hext1
  have hyes1 : (m1.chooses · yes) ∈ F := by
    simpa only [chooses_of_extends hm.wf hext1 hinto.has_yes] using hyes
  refine ((ih yes hltyes m1 hm1 hhasyes1 hyes1).yields hF.fits (ite_spec wf1 hhasyes1)).bind
    fun high m2 hext2 h2 => ?_
  obtain ⟨hm2, wf2, hhigh⟩ := h2
  have hext := Extends.trans hext2 hext1
  have hlow2 := hlow.mono wf1 hext2 (hinto.has_no.mono hext1)
  have hbranch := hinto.canBranch hext hlow2 hhigh
  -- the node that joins them
  have hjoin : (fun a => bif a v then m2.holds a high else m2.holds a low) ∈ F := by
    refine mem_of_eq hregular fun a => ?_
    rw [hinto.meaning, hlow2.meaning, hhigh.meaning, chooses_of_extends hm.wf hext hinto.has_no,
      chooses_of_extends hm.wf hext hinto.has_yes]
  refine ((mkNode_stays hF hm2 hbranch hjoin).yields hF.fits (mkNode_spec wf2 hbranch)).bind
    fun r m3 hext3 h3 => ?_
  obtain ⟨hm3, wf3, hjoins⟩ := h3
  have hextm := Extends.trans hext3 hext
  have hanswers : m3.Answers c.regular.1 r :=
    hinto.answers hm.wf hextm hall.regular (hlow2.mono wf2 hext3 (hinto.has_no.mono hext))
      (hhigh.mono wf2 hext3 (hinto.has_yes.mono hext)) hjoins
  -- the node is kept as the result, which changes no node
  refine stays_after_note hm3 fun m4 hm4 hnodes4 => ?_
  obtain ⟨m5, hremember, wf5, hnodes5⟩ :=
    remember_spec hm4.wf ((hall.regular.mono hextm).congr hnodes4) (hanswers.congr hnodes4)
  exact Step.Ends.after hremember (extends_of_nodes_eq hnodes5)
    (Step.Stays.pure (hm4.congr wf5 hnodes5) _)

/-- A choice stays in a scope to which the function that it describes belongs.  By induction on the
height. -/
theorem ite_stays (hF : Scope F) (hm : m.Inside F) {c : Choice} (hall : m.HasAll c)
    (hmade : (m.chooses · c) ∈ F) : Step.Stays (Inside F) (ite c) m := by
  induction hk : c.height using Nat.strongRecOn generalizing c m with
  | _ k ih =>
    subst hk
    cases hshortcut : c.shortcut with
    | answer r =>
      rw [ite_of_answer hshortcut]
      exact stays_after_note hm fun t ht _ => Step.Stays.pure ht r
    | rewrite d =>
      rw [ite_of_rewrite hshortcut]
      refine stays_after_note hm fun t ht hnodes => ?_
      obtain ⟨halld, -, hmeaning⟩ := shortcut_rewrite hm.wf hall hshortcut
      refine ih _ (Choice.height_lt_of_shortcut hshortcut) ht (halld.congr hnodes) ?_ rfl
      simpa only [chooses_congr hnodes, hmeaning] using hmade
    | split =>
      rw [ite_of_split hshortcut]
      refine stays_after_note hm fun t ht hnodes => ?_
      obtain ⟨found, u, hknown, wfu, hnodes', -⟩ := known_spec ht.wf c.regular.1
      refine Step.Ends.after hknown (extends_of_nodes_eq hnodes') ?_
      have hu := ht.congr wfu hnodes'
      cases found with
      | some r => exact stays_after_note hu fun t ht _ => Step.Stays.pure ht _
      | none =>
        refine iteSplit_stays hF hu ((hall.congr hnodes).congr hnodes') hshortcut ?_
          fun d hd t ht halld hmaded => ih d.height hd ht halld hmaded rfl
        simpa only [chooses_congr hnodes', chooses_congr hnodes] using hmade

/-! ### Cubes -/

theorem above_stays (hF : Scope F) (hm : m.Inside F) {l : Literal} (hl : 0 < l.var) {r : Ref}
    (hr : m.Has r) (hbelow : m.Below l.var r) (hmade : (fun a => l.holds a && m.holds a r) ∈ F) :
    Step.Stays (Inside F) (above l r) m := by
  unfold above
  split
  · next hpositive =>
    refine mkNode_stays hF hm ⟨hl, hm.wf.has_zero, hr, below_zero m _, hbelow⟩ ?_
    refine mem_of_eq hmade fun a => ?_
    rw [holds_zero, Literal.holds, hpositive]
    cases a l.var <;> simp
  · next hnegative =>
    refine mkNode_stays hF hm ⟨hl, hr, hm.wf.has_zero, hbelow, below_zero m _⟩ ?_
    refine mem_of_eq hmade fun a => ?_
    rw [Bool.not_eq_true] at hnegative
    rw [holds_zero, Literal.holds, hnegative]
    cases a l.var <;> simp

/-- What has been made of a cube on the way is left of the whole when the variables above have the
values that their literals ask for. -/
theorem stack_stays (hF : Scope F) (hm : m.Inside F) {ls : List Literal}
    (hpos : ∀ l ∈ ls, 0 < l.var) (hdesc : ls.Pairwise fun l k => k.var < l.var) {r : Ref}
    (hr : m.Has r) (hbelow : ∀ l ∈ ls, m.Below l.var r)
    (hmade : (fun a => Literal.allHold ls a && m.holds a r) ∈ F) :
    Step.Stays (Inside F) (stack r ls) m := by
  induction ls generalizing m r with
  | nil => exact Step.Stays.pure hm r
  | cons l ls ih =>
    obtain ⟨hfirst, hrest⟩ := List.pairwise_cons.1 hdesc
    have hl := hpos l List.mem_cons_self
    have hbelowl := hbelow l List.mem_cons_self
    obtain ⟨b, hb⟩ := Literal.exists_allHold (hrest.imp fun {l k : Literal} (h : k.var < l.var) =>
      (Nat.ne_of_lt h).symm)
    have hsub : Subfunction (fun a => Literal.allHold (l :: ls) a && m.holds a r)
        (fun a => l.holds a && m.holds a r) := by
      refine ⟨l.var - 1, b, fun x => ?_⟩
      have hself : l.holds (fixing (l.var - 1) b x) = l.holds x := by
        rw [Literal.holds, Literal.holds, fixing_of_lt (by omega)]
      have hothers : Literal.allHold ls (fixing (l.var - 1) b x) = true := by
        rw [← hb]
        refine Literal.allHold_congr fun k hk => fixing_of_le ?_
        have hlt := hfirst k hk
        omega
      have hlower : m.holds (fixing (l.var - 1) b x) r = m.holds x r :=
        holds_fixing hm.wf b x hr (hbelowl.of_le (Nat.sub_le _ _))
      simp only [Literal.allHold_cons, hself, hothers, hlower, Bool.and_true]
    refine ((above_stays hF hm hl hr hbelowl (hF.subfunction _ hmade _ hsub)).yields hF.fits
      (above_spec hm.wf hl hr hbelowl)).bind fun q t _ h => ?_
    obtain ⟨ht, -, hq, hdenotes⟩ := h
    refine ih ht (fun k hk => hpos k (List.mem_cons_of_mem l hk)) hrest hdenotes.has
      (fun k hk => hq k.var (hfirst k hk)) ?_
    refine mem_of_eq hmade fun a => ?_
    rw [hdenotes.meaning, Literal.allHold_cons, Bool.and_left_comm, Bool.and_assoc]

/-- A cube stays in a scope to which it belongs. -/
theorem mkCube_stays (hF : Scope F) (hm : m.Inside F) {ls : List Literal}
    (hpos : ∀ l ∈ ls, 0 < l.var) (hdistinct : ls.Pairwise fun l k => l.var ≠ k.var)
    (hmade : Literal.allHold ls ∈ F) : Step.Stays (Inside F) (mkCube ls) m := by
  have hperm := bottomUp_perm ls
  refine stays_after_note hm fun t ht _ => ?_
  refine stack_stays hF ht (fun l hl => hpos l (hperm.mem_iff.1 hl))
    (bottomUp_descending hdistinct) ht.wf.has_one (fun l _ => below_one t _) ?_
  refine mem_of_eq hmade fun a => ?_
  rw [holds_one, Bool.and_true]
  exact (Literal.allHold_perm hperm a).symm

end Manager

end BrakeCheck
