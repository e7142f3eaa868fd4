import BrakeCheck.Proofs.Canonical
import BrakeCheck.Proofs.Requests

/-!
# The invariant of a store, and what references tell apart

Whatever orderly requests a store has served, its nodes are reduced and ordered, none of them is
stored twice, and every entry of its computed table is right; what has been stored is never
changed.  So two references are equal exactly if they stand for the same function.

## Main definitions

* `ComputedTable.InPlace` — every entry of a table stands in the slot of its key.
* `Manager.Invariant` — what is true of the nodes and the computed table of a store.

## Main statements

* `Manager.invariant_of_orderly` — the invariant at every point of a run.
* `Manager.eq_iff_of_orderly` — references are equal exactly if their functions are.
-/

namespace BrakeCheck

/-! ### Entries of the computed table -/

namespace ComputedTable

variable {κ ν : Type} [Hashed κ]

/-- Every entry stands in the slot of its key. -/
def InPlace (t : ComputedTable κ ν) : Prop :=
  ∀ i k result, t.slots[i]? = some (some (k, result)) → t.slotOf k = i

theorem inPlace_empty (bits : Nat) : (empty bits : ComputedTable κ ν).InPlace := by
  intro i k result h
  simp [empty, Array.getElem?_replicate] at h

theorem InPlace.insert {t : ComputedTable κ ν} (h : t.InPlace) (k : κ) (result : ν) :
    (t.insert k result).InPlace := by
  intro i l other hi
  rw [slotOf_insert]
  simp only [ComputedTable.insert, Array.getElem?_setIfInBounds] at hi
  split at hi
  · next heq =>
    -- the slot that has been written
    split at hi
    · cases hi
      exact heq
    · cases hi
  · exact h i l other hi

variable [DecidableEq κ]

theorem InPlace.lookup {t : ComputedTable κ ν} (h : t.InPlace) (k : κ) :
    (t.lookup k).2.InPlace := by
  unfold InPlace slotOf
  rw [slots_lookup]
  exact h

/-- An entry in its place is found. -/
theorem InPlace.find?_eq {t : ComputedTable κ ν} (h : t.InPlace) {i : Nat} {k : κ} {result : ν}
    (hi : t.slots[i]? = some (some (k, result))) : t.find? k = some result := by
  unfold find?
  rw [h i k result hi, Array.getD_eq_getD_getElem?, hi]
  simp

end ComputedTable

namespace Manager

/-- Every operation leaves the entries of the computed table in their places. -/
theorem kept_inPlace : Kept (fun m => m.computed.InPlace) fun _ => True where
  journal _ h := h
  put h _ := h
  lookup c h := h.lookup c
  insert c r h := h.insert c r
  split _ _ := trivial

/-! ### The invariant -/

/-- The terminal is the only node without a variable and all other nodes fit their indices, no two
nodes are equal, and every entry of the computed table is the function that its choice
describes. -/
structure Invariant (m : Manager) : Prop where
  terminal : ∀ i, m.nodes.value? i = some Node.terminal ↔ i = Ref.terminal
  fits : ∀ i n, i ≠ Ref.terminal → m.nodes.value? i = some n → m.Fits i n
  distinct : ∀ i j n, m.nodes.value? i = some n → m.nodes.value? j = some n → i = j
  computed : ∀ (i : Nat) c r, m.computed.slots[i]? = some (some (c, r)) →
    m.HasAll c ∧ m.Has r ∧ ∀ a, m.holds a r = bif m.holds a c.test then m.holds a c.yes
      else m.holds a c.no

theorem WellFormed.invariant {m : Manager} (wf : m.WellFormed) (hplace : m.computed.InPlace) :
    m.Invariant where
  terminal i := by
    constructor
    · exact fun hi => wf.distinct hi wf.terminal
    · rintro rfl
      exact wf.terminal
  fits := wf.fits
  distinct _ _ _ hi hj := wf.distinct hi hj
  computed i c r hi := by
    obtain ⟨hall, hanswers⟩ := wf.computed c r (hplace.find?_eq hi)
    exact ⟨hall, hanswers.has, hanswers.meaning⟩

theorem inPlace_of_create {bits : Nat} {journal : Journal} {m : Manager}
    (h : create bits journal = .ok m) : m.computed.InPlace := by
  rw [eq_of_create h]
  exact ComputedTable.inPlace_empty _

/-- The invariant of a store over whole runs: at every point of a run of orderly requests, all
requests so far have been answered, the invariant holds, and the nodes of the store stay as they
are until the end of the run. -/
theorem invariant_of_orderly {bits : Nat} (hbits : bits ≤ 24) (journal : Journal) :
    ∃ m, create bits journal = .ok m ∧ ∀ before after : List Request,
      m.Orderly (before ++ after) → ((serveAll (before ++ after)).perform m).2.Addressable →
      ∃ rs t, (serveAll before).perform m = (.ok rs, t) ∧ t.Invariant ∧
        ((serveAll (before ++ after)).perform m).2.Extends t := by
  obtain ⟨m, hcreate⟩ := exists_create hbits journal
  refine ⟨m, hcreate, fun before after h hfit => ?_⟩
  rw [serveAll_append] at hfit ⊢
  have hgrows : ∀ rs, Step.Grows (do return rs ++ (← serveAll after)) :=
    fun rs => (serveAll_grows after).bind fun _ => Step.Grows.pure _
  obtain ⟨rs, t, hrun, -, wft, -⟩ := serveAll_spec (wellFormed_of_create hcreate) h.left
    (Step.addressable_of_bind hgrows hfit)
  have hplace := serveAll_keeps kept_inPlace (fun _ => trivial) before m
    (inPlace_of_create hcreate)
  rw [hrun] at hplace
  refine ⟨rs, t, hrun, wft.invariant hplace, ?_⟩
  rw [Step.perform_bind, hrun]
  exact hgrows rs t

/-- The conjunction of two variables is served, and then the disjunction of their complements. -/
theorem invariant_of_orderly_two_vars :
    ∃ m rs t, create 0 .closed = .ok m ∧
      m.Orderly ([.var 1, .var 2, .conj ⟨2, false⟩ ⟨3, false⟩] ++ [.disj ⟨2, true⟩ ⟨3, true⟩]) ∧
      (serveAll [.var 1, .var 2, .conj ⟨2, false⟩ ⟨3, false⟩]).perform m = (.ok rs, t) ∧
      t.Invariant := by
  obtain ⟨m, hcreate, h⟩ := invariant_of_orderly (Nat.zero_le 24) .closed
  obtain rfl := eq_of_create hcreate
  obtain ⟨rs, t, hrun, hinvariant, -⟩ := h [.var 1, .var 2, .conj ⟨2, false⟩ ⟨3, false⟩]
    [.disj ⟨2, true⟩ ⟨3, true⟩] (by decide +kernel) (by decide +kernel)
  exact ⟨_, rs, t, hcreate, by decide +kernel, hrun, hinvariant⟩

/-! ### References and functions -/

/-- References tell functions apart: after a run of orderly requests, two references that have been
answered at any times of it, or are constants, are equal if and only if they stand for the same
function; in particular, the constants are the only references to theirs. -/
theorem eq_iff_of_orderly {bits : Nat} (hbits : bits ≤ 24) (journal : Journal) :
    ∃ m, create bits journal = .ok m ∧ ∀ qs : List Request, m.Orderly qs →
      ((serveAll qs).perform m).2.Addressable →
      ∃ rs t, (serveAll qs).perform m = (.ok rs, t) ∧
        (∀ r ∈ .one :: .zero :: rs, ∀ s ∈ .one :: .zero :: rs,
          r = s ↔ ∀ a, t.holds a r = t.holds a s) ∧
        ∀ r ∈ rs, (r = .zero ↔ ∀ a, t.holds a r = false) ∧ (r = .one ↔ ∀ a, t.holds a r = true) := by
  obtain ⟨m, hcreate⟩ := exists_create hbits journal
  refine ⟨m, hcreate, fun qs h hfit => ?_⟩
  obtain ⟨rs, t, hrun, -, wft, hrs⟩ := serveAll_spec (wellFormed_of_create hcreate) h hfit
  have hall : ∀ r ∈ Ref.one :: Ref.zero :: rs, t.Has r :=
    List.forall_mem_cons.2 ⟨wft.has_one, List.forall_mem_cons.2 ⟨wft.has_zero, hrs⟩⟩
  refine ⟨rs, t, hrun, fun r hr s hs => ⟨?_, eq_of_holds_eq wft (hall r hr) (hall s hs)⟩,
    fun r hr => ⟨eq_zero_iff wft (hrs r hr), eq_one_iff wft (hrs r hr)⟩⟩
  rintro rfl a
  rfl

/-- The complement of a conjunction and the disjunction of the complements have one reference; it is
not that of the first variable, nor the constant false, so that its function is another one. -/
theorem eq_iff_of_orderly_de_morgan :
    ∃ m t, create 0 .closed = .ok m ∧
      (serveAll [.var 1, .var 2, .conj ⟨2, false⟩ ⟨3, false⟩, .complement ⟨4, false⟩,
        .disj ⟨2, true⟩ ⟨3, true⟩]).perform m =
        (.ok [⟨2, false⟩, ⟨3, false⟩, ⟨4, false⟩, ⟨4, true⟩, ⟨4, true⟩], t) ∧
      ¬ (∀ a, t.holds a ⟨4, true⟩ = t.holds a ⟨2, false⟩) ∧ ¬ ∀ a, t.holds a ⟨4, true⟩ = false := by
  obtain ⟨m, hcreate, h⟩ := eq_iff_of_orderly (Nat.zero_le 24) .closed
  obtain rfl := eq_of_create hcreate
  obtain ⟨rs, t, hrun, heq, hconst⟩ := h [.var 1, .var 2, .conj ⟨2, false⟩ ⟨3, false⟩,
    .complement ⟨4, false⟩, .disj ⟨2, true⟩ ⟨3, true⟩] (by decide +kernel) (by decide +kernel)
  have hanswers : some rs = some [⟨2, false⟩, ⟨3, false⟩, ⟨4, false⟩, ⟨4, true⟩, ⟨4, true⟩] := by
    refine (congrArg (fun run => run.1.toOption) hrun).symm.trans ?_
    decide +kernel
  cases hanswers
  refine ⟨_, t, hcreate, hrun, fun hall => ?_, fun hall => ?_⟩
  · exact absurd ((heq ⟨4, true⟩ (by decide) ⟨2, false⟩ (by decide)).2 hall) (by decide)
  · exact absurd ((hconst ⟨4, true⟩ (by decide)).1.2 hall) (by decide)

end Manager

end BrakeCheck
