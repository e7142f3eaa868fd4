import BrakeCheck.Proofs.Confined
import BrakeCheck.Proofs.PathCount
import BrakeCheck.Proofs.TableSize

/-!
# Room for a check

To block a path, its cube is made and taken away from the function.  The cube needs a node for each
literal at most.  What is left of the function differs from it along the path alone: as soon as a
variable has another value than the path asks for, what is left of the one is left of the other.  So
the result needs a node for each literal at most, too, and a check makes no more than two nodes for
each atom and each path that it may examine.

This bounds the nodes of a verdict by what the assertions have made, and by nothing that the search
for a solution does.

## Main definitions

* `Manager.MakesAtMost` — computations that make no more than a number of nodes.
* `Manager.along` — what is left of a function on the way along literals.
* `Manager.blocked` — what is left of a function when a path is blocked.
* `Solver.Spare` — room for the nodes that a check may need.

## Main statements

* `Manager.Follows.stores_or_mem_along` — what is left of a function without a path.
* `Manager.block_makes` — blocking a path makes two nodes for each literal at most.
* `Skeleton.search_size_le` — the nodes of a search.
* `Solver.room_of_spare` — the nodes of a verdict can be referred to, if there is room for its check
  after its assertions.
* `Solver.decided_of_spare` — such a verdict is not left open if the budget allows all paths.
-/

namespace BrakeCheck

namespace Manager

/-! ### Cubes -/

/-- The computation makes no more than `n` nodes, from whatever store it starts. -/
def MakesAtMost {α : Type} (n : Nat) (step : Step Manager α) : Prop :=
  ∀ m : Manager, (step.perform m).2.nodes.size ≤ m.nodes.size + n

section
variable {α β : Type} {j k : Nat} {step : Step Manager α}

theorem MakesAtMost.pure (a : α) : MakesAtMost 0 (Pure.pure a : Step Manager α) :=
  fun _ => Nat.le_refl _

theorem MakesAtMost.bind {next : α → Step Manager β} (h : MakesAtMost j step)
    (hnext : ∀ a, MakesAtMost k (next a)) : MakesAtMost (j + k) (step >>= next) := by
  intro m
  have hfirst := h m
  rw [Step.perform_bind]
  rcases hrun : step.perform m with ⟨f | a, t⟩
  · rw [hrun] at hfirst
    exact hfirst.trans (Nat.add_le_add_left (Nat.le_add_right j k) _)
  · rw [hrun] at hfirst
    have hsecond := hnext a t
    dsimp only at hfirst hsecond ⊢
    omega

/-- A report makes no node. -/
theorem MakesAtMost.after_note {level : Level} {origin : Origin} {text : Thunk String}
    {next : Unit → Step Manager β} (h : MakesAtMost k (next ())) :
    MakesAtMost k (note level origin text >>= next) := by
  rw [← Nat.zero_add k]
  exact MakesAtMost.bind (fun _ => Nat.le_refl _) fun _ => h

end

theorem share_makes (v : Nat) (low high : Ref) : MakesAtMost 1 (share v low high) := by
  intro m
  unfold share
  split
  · exact Nat.le_succ _
  · show (m.nodes.put ⟨v, low, high⟩).2.size ≤ m.nodes.size + 1
    cases hfind : m.nodes.find? ⟨v, low, high⟩ with
    | some i =>
      rw [HashCons.put_of_find? hfind]
      exact Nat.le_succ _
    | none => exact Nat.le_of_eq (HashCons.size_put_of_find? hfind)

theorem mkNode_makes (v : Nat) (low high : Ref) : MakesAtMost 1 (mkNode v low high) := by
  by_cases hzero : v = 0
  · subst hzero
    exact fun _ => Nat.le_succ _
  · rw [mkNode_of_pos (Nat.pos_of_ne_zero hzero)]
    refine MakesAtMost.after_note ?_
    split
    · exact MakesAtMost.after_note ((share_makes _ _ _).bind fun _ => MakesAtMost.pure _)
    · exact share_makes _ _ _

theorem stack_makes (ls : List Literal) : ∀ r, MakesAtMost ls.length (stack r ls) := by
  induction ls with
  | nil => exact fun r => MakesAtMost.pure r
  | cons l ls ih =>
    intro r
    have habove : MakesAtMost 1 (above l r) := by
      unfold above
      split
      · exact mkNode_makes _ _ _
      · exact mkNode_makes _ _ _
    rw [List.length_cons, Nat.add_comm]
    exact habove.bind ih

/-- A cube needs a node for each literal at most. -/
theorem mkCube_makes (ls : List Literal) : MakesAtMost ls.length (mkCube ls) := by
  have hstack := stack_makes (bottomUp ls) .one
  rw [(bottomUp_perm ls).length_eq] at hstack
  exact MakesAtMost.after_note hstack

/-! ### What is left of a function without a path -/

/-- What is left of a function on the way along literals, before each of them: at first the function
itself, and then what it is where the literals so far hold. -/
def along (f : Condition) : List Literal → List Condition
  | [] => []
  | l :: ls => f :: along (fun a => f (Function.update a l.var l.isPositive)) ls

theorem length_along (f : Condition) (ls : List Literal) : (along f ls).length = ls.length := by
  induction ls generalizing f with
  | nil => rfl
  | cons l ls ih => rw [along, List.length_cons, ih, List.length_cons]

/-- What is left of a function when a path is blocked. -/
def blocked (m : Manager) (r : Ref) (ls : List Literal) : Condition :=
  fun a => m.holds a r && !Literal.allHold ls a

variable {m t : Manager} {r next : Ref} {n : Node} {l : Literal} {ls : List Literal}

/-- Where the first literal holds, the rest of the path is blocked in the edge that it takes. -/
theorem blocked_cons_of_holds {a : Nat → Bool} (hmeaning : m.holds a r = m.holds a next)
    (hl : l.holds a = true) : m.blocked r (l :: ls) a = m.blocked next ls a := by
  rw [blocked, blocked, hmeaning, Literal.allHold_cons, hl, Bool.true_and]

/-- Where it does not, nothing is blocked. -/
theorem blocked_cons_of_not_holds {a : Nat → Bool} (hl : l.holds a = false) :
    m.blocked r (l :: ls) a = m.holds a r := by
  rw [blocked, Literal.allHold_cons, hl, Bool.false_and, Bool.not_false, Bool.and_true]

/-- What is left of a function without its path is stored, or it is left on the way along the path.
By induction along the path: if the first variable has the value that the path asks for, it is left
of the rest without the rest of the path, and with the other value it is left of the function. -/
theorem Follows.stores_or_mem_along (wf : m.WellFormed) (h : m.Follows r ls) (hr : m.Has r)
    {g : Condition} (hg : Subfunction (m.blocked r ls) g) :
    m.Stores g ∨ g ∈ along (m.blocked r ls) ls := by
  induction h with
  | one =>
    obtain ⟨k, b, hvalue⟩ := hg
    exact Or.inl ⟨.zero, wf.has_zero, fun a => by rw [hvalue, blocked, holds_zero]; simp⟩
  | @edge r next n positive l ls hterminal hn hpositive hedge hvar hsign hl hnext ih =>
    obtain ⟨hedges, -, -⟩ := Cofactors.edges wf hterminal hn
    obtain ⟨-, hhas, hbelow, -⟩ := taken_edge wf hterminal hn hpositive hedge
    have habove : ∀ k ∈ ls, n.var < k.var := (hnext.leadsToOne wf).2 n.var hbelow
    have hholds : ∀ a : Nat → Bool, l.holds a = (a n.var == positive) := fun a => by
      rw [Literal.holds, hvar, hsign]
    have htaken : ∀ a : Nat → Bool, a n.var = positive →
        m.blocked r (l :: ls) a = m.blocked next ls a := fun a ha =>
      blocked_cons_of_holds (holds_edge wf hterminal hn hedge ha)
        (by rw [hholds, ha, beq_self_eq_true])
    obtain ⟨k, b, hvalue⟩ := hg
    by_cases hk : n.var ≤ k
    · by_cases hb : b n.var = positive
      · -- the value that the path asks for
        have hrest : Subfunction (m.blocked next ls) g :=
          ⟨k, b, fun x => by rw [hvalue, htaken _ ((fixing_of_le hk).trans hb)]⟩
        have hupdate : (fun a => m.blocked r (l :: ls) (Function.update a l.var l.isPositive)) =
            m.blocked next ls := by
          funext a
          have hself : Function.update a l.var l.isPositive n.var = positive := by
            rw [hvar, Function.update_self, hsign]
          have hlater : ∀ v, n.var < v → Function.update a l.var l.isPositive v = a v := fun v hv =>
            Function.update_of_ne (by omega) _ a
          rw [htaken _ hself, blocked, blocked, holds_congr_of_below wf hlater hhas hbelow,
            Literal.allHold_congr fun k hk => hlater k.var (habove k hk)]
        refine (ih hhas hrest).imp id fun hmem => List.mem_cons_of_mem _ ?_
        rw [hupdate]
        exact hmem
      · -- the other value
        obtain ⟨q, -, hq, hmeaning⟩ := exists_reaches_of_fixing wf ⟨hr, fun _ => rfl⟩ k b
        refine Or.inl ⟨q, hq, fun x => ?_⟩
        have hleft : l.holds (fixing k b x) = false := by
          rw [hholds, fixing_of_le hk]
          exact beq_eq_false_iff_ne.2 hb
        rw [hmeaning, hvalue, blocked_cons_of_not_holds hleft]
    · -- no variable that the function looks at has a value yet
      have hsame : g = m.blocked r (l :: ls) := by
        funext x
        have hfirst : ∀ v, n.var ≤ v → fixing k b x v = x v := fun v hv =>
          fixing_of_lt (by omega)
        rw [hvalue, blocked, blocked, hedges.branch.holds_congr wf hedges.meaning hfirst,
          Literal.allHold_congr fun k hk => hfirst k.var ?_]
        rcases List.mem_cons.1 hk with rfl | hk
        · exact Nat.le_of_eq hvar.symm
        · exact Nat.le_of_lt (habove k hk)
      rw [hsame]
      exact Or.inr List.mem_cons_self

/-! ### One more function -/

/-- The functions of a store, and those that are left of one more function, up to complements. -/
def storesWith (m : Manager) (f : Condition) : Set Condition :=
  {g | m.Stores g ∨ ∃ h, Subfunction f h ∧ ∃ flip, ∀ a, g a = (flip ^^ h a)}

variable {f : Condition} {fs : List Condition}

/-- A store has no more nodes than another one and what is left of one more function, as far as the
other one does not store it. -/
theorem Inside.size_le_add (h : t.Inside (m.storesWith f))
    (hleft : ∀ g, Subfunction f g → m.Stores g ∨ g ∈ fs) :
    t.nodes.size ≤ m.nodes.size + fs.length := by
  rw [← m.length_regulars, ← List.length_append]
  refine h.size_le_length fun g hg => ?_
  rcases hg with hstores | ⟨d, hd, flip, hmeaning⟩
  · obtain ⟨e, he, hflip⟩ := hstores.mem_regulars
    exact ⟨e, List.mem_append_left _ he, hflip⟩
  · rcases hleft d hd with hstores | hmem
    · obtain ⟨e, he, other, hother⟩ := hstores.mem_regulars
      exact ⟨e, List.mem_append_left _ he, flip ^^ other, fun a => by
        rw [hmeaning, hother, Bool.xor_assoc]⟩
    · exact ⟨d, List.mem_append_right _ hmem, flip, hmeaning⟩

/-- They are a scope, if references have room for all of them. -/
theorem scope_storesWith (wf : m.WellFormed)
    (hleft : ∀ g, Subfunction f g → m.Stores g ∨ g ∈ fs)
    (hroom : m.nodes.size + fs.length < Ref.indexRange) : Scope (m.storesWith f) := by
  have hscope : Scope {g | m.Stores g} :=
    scope_of_addressable wf (Nat.lt_of_le_of_lt (Nat.le_add_right _ _) hroom)
  constructor
  · rintro g (hstores | ⟨h, hh, flip, hmeaning⟩)
    · exact Or.inl (hscope.neg g hstores)
    · refine Or.inr ⟨h, hh, !flip, fun a => ?_⟩
      show (!g a) = _
      rw [hmeaning, Bool.not_xor]
  · rintro g (hstores | ⟨h, hh, flip, hmeaning⟩) d hd
    · exact Or.inl (hscope.subfunction g hstores d hd)
    · obtain ⟨k, b, hvalue⟩ := hd
      have hsub : Subfunction h fun x => h (fixing k b x) := ⟨k, b, fun _ => rfl⟩
      exact Or.inr ⟨_, hh.trans hsub, flip, fun a => by rw [hvalue, hmeaning]⟩
  · exact fun t ht => Nat.lt_of_le_of_lt (ht.size_le_add hleft) hroom

/-- Once there is the cube of a path, blocking it makes a node for each literal at most. -/
theorem Follows.conj_makes (wf : m.WellFormed) (h : m.Follows r ls) (hr : m.Has r) {cube : Ref}
    (hcube : m.Denotes cube (Literal.allHold ls))
    (hroom : m.nodes.size + ls.length < Ref.indexRange) :
    Step.Ends (conj r (-cube)) m fun _ t => t.nodes.size ≤ m.nodes.size + ls.length := by
  have hleft : ∀ g, Subfunction (m.blocked r ls) g →
      m.Stores g ∨ g ∈ along (m.blocked r ls) ls := fun g => h.stores_or_mem_along wf hr
  have hF : Scope (m.storesWith (m.blocked r ls)) :=
    scope_storesWith wf hleft (by rwa [length_along])
  have hmade : (m.chooses · ⟨r, -cube, .zero⟩) ∈ m.storesWith (m.blocked r ls) := by
    -- there is no variable before the first one
    have hpos := (h.leadsToOne wf).1.var_pos wf
    refine Or.inr ⟨_, ⟨0, fun _ => false, fun _ => rfl⟩, false, fun a => ?_⟩
    dsimp only
    rw [chooses, holds_neg, hcube.meaning, holds_zero, Bool.false_xor, blocked,
      holds_fixing_zero wf _ a hr, Literal.allHold_congr fun l hl => fixing_of_lt (hpos l hl)]
    cases m.holds a r <;> rfl
  obtain ⟨q, t, hrun, hext, ht⟩ := ite_stays hF ⟨wf, fun q hq => Or.inl ⟨q, hq, fun _ => rfl⟩⟩
    ⟨hr, has_neg.2 hcube.has, wf.has_zero⟩ hmade
  have hsize := ht.size_le_add hleft
  rw [length_along] at hsize
  exact ⟨q, t, hrun, hext, hsize⟩

/-- Blocking a path makes two nodes for each of its literals at most: one for the cube, and one for
what is left of the function. -/
theorem block_makes (wf : m.WellFormed) (hr : m.Has r) (h : m.Follows r ls)
    (hroom : m.nodes.size + 2 * ls.length < Ref.indexRange) :
    Step.Ends (block r ls) m fun _ t => t.nodes.size ≤ m.nodes.size + 2 * ls.length := by
  have hleads := (h.leadsToOne wf).1
  have hdistinct := hleads.ascending.imp fun {l k : Literal} (h : l.var < k.var) => Nat.ne_of_lt h
  have hsize := mkCube_makes ls m
  obtain ⟨cube, k, hrun, hext, wfk, hcube⟩ := mkCube_spec wf (hleads.var_pos wf) hdistinct
    (Nat.lt_of_le_of_lt hsize (by omega))
  rw [hrun] at hsize
  dsimp only at hsize
  obtain ⟨q, t, hrun', hext', hle⟩ := (h.mono hext).conj_makes wfk (hr.mono hext) hcube (by omega)
  exact Step.Ends.after hrun hext ⟨q, t, hrun', hext', by omega⟩

end Manager

/-! ### Searches -/

namespace Skeleton

variable {N : String → Prop} {s : Skeleton} {r : Ref} {ls : List Literal}

/-- The examination of a path leaves entries in the journal, and says what elimination says of the
constraints. -/
theorem perform_examine (ls : List Literal) (s : Skeleton) :
    ∃ journal, (examine ls).perform s =
      (s.atoms.examined ls, ⟨{ s.manager with journal }, s.atoms⟩) := by
  unfold examine AtomTable.examined
  rw [Step.perform_bind, Step.perform_query]
  cases s.atoms.constraints ls with
  | error f => exact ⟨s.manager.journal, rfl⟩
  | ok cs => exact ⟨_, rfl⟩

/-- A round of a search: the path is reported and examined, and if its constraints have no solution
it is blocked. -/
theorem perform_search_succ (hpath : s.manager.path r = .ok (some ls)) (spent budget : Nat) :
    ∃ journal, (search r spent (budget + 1)).perform s =
      match s.atoms.examined ls with
      | .error f => (.error f, ⟨{ s.manager with journal }, s.atoms⟩)
      | .ok (.feasible values) =>
        (.ok ⟨.sat, some values, spent + 1⟩, ⟨{ s.manager with journal }, s.atoms⟩)
      | .ok .infeasible =>
        (onManager (Manager.block r ls) >>= fun q => search q (spent + 1) budget).perform
          ⟨{ s.manager with journal }, s.atoms⟩ := by
  obtain ⟨journal, hnoted⟩ : ∃ journal, (notePath (spent + 1) ls).perform s =
      (.ok (), ⟨{ s.manager with journal }, s.atoms⟩) := ⟨_, rfl⟩
  obtain ⟨journal', hexamined⟩ := perform_examine ls ⟨{ s.manager with journal }, s.atoms⟩
  refine ⟨journal', ?_⟩
  rw [search, Step.perform_bind, Step.perform_query, hpath]
  dsimp only
  rw [Step.perform_bind, hnoted]
  dsimp only
  rw [Step.perform_bind, hexamined]
  rcases s.atoms.examined ls with f | values | _
  · rfl
  · rfl
  · rfl

/-- A path has no more literals than there are atoms. -/
theorem WellFormed.length_le (wf : s.WellFormed N) (h : s.manager.LeadsToOne r ls) :
    ls.length ≤ s.atoms.size := by
  have hnodup : (ls.map Literal.var).Nodup :=
    List.pairwise_map.2 (h.ascending.imp fun hlt => Nat.ne_of_lt hlt)
  have hsubset : ls.map Literal.var ⊆ List.range' 1 s.atoms.size := by
    intro v hv
    obtain ⟨l, hl, rfl⟩ := List.mem_map.1 hv
    obtain ⟨hpos, hle⟩ := wf.isAtom h l hl
    exact List.mem_range'_1.2 ⟨hpos, by omega⟩
  have hlength := (hnodup.subperm hsubset).length_le
  rwa [List.length_map, List.length_range'] at hlength

/-- Blocking a path makes two nodes for each atom at most. -/
theorem block_ends (wf : s.WellFormed N) (hr : s.manager.Has r) (h : s.manager.Follows r ls)
    (hroom : s.manager.nodes.size + 2 * s.atoms.size < Ref.indexRange) :
    Step.Ends (onManager (Manager.block r ls)) s fun q t => t.WellFormed N ∧ t.atoms = s.atoms ∧
      t.manager.Has q ∧ t.manager.nodes.size ≤ s.manager.nodes.size + 2 * s.atoms.size := by
  have hleads := (h.leadsToOne wf.manager).1
  have hlength := wf.length_le hleads
  obtain ⟨q, m, hrun, -, hsize⟩ := Manager.block_makes wf.manager hr h (by omega)
  have hfit : ((onManager (Manager.block r ls)).perform s).2.manager.Addressable := by
    rw [perform_onManager, hrun]
    exact Nat.lt_of_le_of_lt hsize (by omega)
  have hkeeps := Manager.block_keeps (Manager.kept_within s.atoms.size)
    (fun l hl => (wf.isAtom hleads l hl).2) r
  obtain ⟨q', t, hrun', hext, wft, hatoms, hq⟩ :=
    onManager_yields wf hkeeps (Manager.block_spec wf.manager hr hleads) hfit
  refine ⟨q', t, hrun', hext, wft, hatoms, hq.has, ?_⟩
  rw [perform_onManager, hrun] at hrun'
  cases hrun'
  dsimp only
  omega

/-- A search makes two nodes for each atom and each path that it may examine, at most.  By induction
on the budget. -/
theorem search_size_le (budget : Nat) {s : Skeleton} (wf : s.WellFormed N) {r : Ref} (spent : Nat)
    (hr : s.manager.Has r)
    (hroom : s.manager.nodes.size + budget * (2 * s.atoms.size) < Ref.indexRange) :
    ((search r spent budget).perform s).2.manager.nodes.size ≤
      s.manager.nodes.size + budget * (2 * s.atoms.size) := by
  induction budget generalizing s r spent with
  | zero =>
    rw [search, Step.perform_bind, Step.perform_query]
    rcases s.manager.path r with f | _ | ls
    · exact Nat.le_add_right _ _
    · exact Nat.le_add_right _ _
    · exact Nat.le_add_right _ _
  | succ budget ih =>
    have hfit : s.manager.Addressable := Nat.lt_of_le_of_lt (Nat.le_add_right _ _) hroom
    have hmul : (budget + 1) * (2 * s.atoms.size) = budget * (2 * s.atoms.size) + 2 * s.atoms.size :=
      Nat.succ_mul _ _
    rcases Manager.path_eq_ok wf.manager (wf.narrow hfit) hr with ⟨-, hrun⟩ | ⟨ls, hrun, hpath⟩
    · rw [search, Step.perform_bind, Step.perform_query, hrun]
      exact Nat.le_add_right _ _
    · obtain ⟨journal, hround⟩ := perform_search_succ hrun spent budget
      rw [hround]
      rcases s.atoms.examined ls with f | values | _
      · exact Nat.le_add_right _ _
      · exact Nat.le_add_right _ _
      · -- the path is blocked, and the rest of the budget is for what is left
        have hsame : Manager.Extends { s.manager with journal } s.manager :=
          Manager.extends_of_nodes_eq rfl
        obtain ⟨q, t, hblock, -, wft, hatoms, hq, hsize⟩ := block_ends (wf.withJournal journal)
          (hr.mono hsame) (hpath.mono hsame)
          (show s.manager.nodes.size + 2 * s.atoms.size < Ref.indexRange by omega)
        dsimp only at hatoms hsize
        rw [Step.perform_bind, hblock]
        have hrest := ih wft (spent + 1) hq (by rw [hatoms]; omega)
        rw [hatoms] at hrest
        dsimp only
        omega

end Skeleton

/-! ### Checks and verdicts -/

namespace Solver

open Step

/-- There is room for the nodes that a check may need: two for each atom and each path that it may
examine. -/
def Spare (s : Solver) : Prop :=
  s.skeleton.manager.nodes.size + s.config.maxTheoryChecks * (2 * s.skeleton.atoms.size) <
    Ref.indexRange

instance (s : Solver) : Decidable s.Spare := inferInstanceAs (Decidable (_ < _))

variable {s t : Solver} {fs : List Formula} {config config' : SolverConfig}
  {journal journal' : Journal}

theorem Spare.addressable (h : s.Spare) : s.skeleton.manager.Addressable :=
  Nat.lt_of_le_of_lt (Nat.le_add_right _ _) h

theorem nodes_report (result : SearchResult) (s : Solver) :
    ((report result).perform s).2.skeleton.manager.nodes = s.skeleton.manager.nodes := by
  unfold report
  rw [perform_bind, perform_query]
  cases s.stats with
  | error f => rfl
  | ok stats => rfl

/-- Where there is room for a check, all nodes can be referred to after it. -/
theorem Spare.check (h : s.Spare) (hs : s.Sound fs) :
    (check.perform s).2.skeleton.manager.Addressable := by
  have hsize := Skeleton.search_size_le s.config.maxTheoryChecks hs.wf 0 hs.root.has h
  have hfit := Nat.lt_of_le_of_lt hsize h
  rw [perform_check]
  rcases hrun : (Skeleton.search s.root 0 s.config.maxTheoryChecks).perform s.skeleton with
    ⟨_ | result, k⟩
  · rw [hrun] at hfit
    exact hfit
  · rw [hrun] at hfit
    show ((report result).perform (s.concluded result k)).2.skeleton.manager.nodes.size < _
    rw [nodes_report]
    exact hfit

/-- Solvers that differ in their tables alone have room for the same checks. -/
theorem Alike.spare_iff (h : s.Alike t) : t.Spare ↔ s.Spare := by
  have hsize : t.skeleton.manager.nodes.size = s.skeleton.manager.nodes.size :=
    congrArg Array.size h.skeleton.manager.same
  rw [Spare, Spare, hsize, h.budget, h.skeleton.atoms]

/-- Sound solvers that differ in their tables alone have the same number of paths. -/
theorem Alike.pathCount_eq (h : s.Alike t) (hs : s.Sound fs) (ht : t.Sound fs) :
    t.skeleton.manager.pathCount t.root = s.skeleton.manager.pathCount s.root := by
  rw [h.root]
  exact Manager.pathCount_of_extends ht.wf.manager hs.wf.manager
    h.skeleton.manager.same.right_extends hs.root.has

/-- The assertions of a verdict leave a sound solver, if there is room for a check after them. -/
theorem exists_addAll (hcreate : create config journal = .ok s)
    (hspare : ((addAll fs).perform s).2.Spare) :
    ∃ t, (addAll fs).perform s = (.ok (), t) ∧ t.Sound fs ∧ t.Spare := by
  obtain ⟨_, t, hrun, -, ht⟩ := addAll_spec fs (sound_of_create hcreate) hspare.addressable
  rw [hrun] at hspare
  exact ⟨t, hrun, ht, hspare⟩

/-- It is enough that there is this room in tables of some size. -/
theorem exists_addAll_alike (hs : create config journal = .ok s)
    (ht : create config' journal' = .ok t) (hspare : ((addAll fs).perform t).2.Spare)
    (hbudget : config'.maxTheoryChecks = config.maxTheoryChecks) :
    ∃ u, (addAll fs).perform s = (.ok (), u) ∧ u.Sound fs ∧ u.Spare ∧
      u.Alike ((addAll fs).perform t).2 := by
  have halike := (addAll_lockstep fs s t (alike_of_create hs ht hbudget)).related
  obtain ⟨u, hrun, hu, hspare'⟩ := exists_addAll hs (halike.spare_iff.1 hspare)
  rw [hrun] at halike
  exact ⟨u, hrun, hu, hspare', halike⟩

/-- All nodes of a verdict can be referred to, if there is room for its check after its
assertions. -/
theorem room_of_spare (ht : create config' journal' = .ok t)
    (hspare : ((addAll fs).perform t).2.Spare)
    (hbudget : config'.maxTheoryChecks = config.maxTheoryChecks) : Room fs config journal := by
  intro s hs
  obtain ⟨u, hrun, hu, hspare', -⟩ := exists_addAll_alike hs ht hspare hbudget
  have hfit := hspare'.check hu
  rw [perform_judge, perform_bind, hrun]
  dsimp only
  rcases hcheck : check.perform u with ⟨_ | answer, v⟩
  · rw [hcheck] at hfit
    exact hfit
  · rw [hcheck] at hfit
    exact hfit

/-- Such a verdict is not left open, if the budget is not below the number of paths of the
conjunction. -/
theorem decided_of_spare (hbits : config.bucketBits ≤ 24) (ht : create config' journal' = .ok t)
    (hspare : ((addAll fs).perform t).2.Spare)
    (hpaths : ((addAll fs).perform t).2.skeleton.manager.pathCount ((addAll fs).perform t).2.root ≤
      ((addAll fs).perform t).2.config.maxTheoryChecks)
    (hbudget : config'.maxTheoryChecks = config.maxTheoryChecks) :
    ∃ verdict j, (verify fs config).perform journal = (.ok verdict, j) ∧
      verdict.answer ≠ .unknown := by
  obtain ⟨m, hm⟩ := Manager.exists_create hbits journal
  obtain ⟨s, hs⟩ : ∃ s, create config journal = .ok s := ⟨_, create_of_manager config hm⟩
  obtain ⟨u, hrun, hu, hspare', halike⟩ := exists_addAll_alike hs ht hspare hbudget
  obtain ⟨w, hrun', hw, -⟩ := exists_addAll ht hspare
  rw [hrun'] at halike hpaths
  obtain ⟨answer, v, hcheck, -, -, result, hsearched, rfl, -⟩ := check_searched hu (hspare'.check hu)
  have hjudge : (judge fs).perform s = (.ok (Verdict.ofCheck result.answer v), v) := by
    rw [perform_judge, perform_bind, hrun]
    dsimp only
    rw [hcheck]
  obtain ⟨j, hverify⟩ := verify_eq_ok_iff.2 ⟨s, v, hs, hjudge⟩
  refine ⟨_, j, hverify, fun hunknown => ?_⟩
  rw [Verdict.answer_ofCheck] at hunknown
  have hlt := hsearched.theoryChecks_le.2 hunknown
  rw [← halike.pathCount_eq hu hw, ← halike.budget] at hlt
  exact absurd hpaths (Nat.not_le.2 hlt)

end Solver

end BrakeCheck
