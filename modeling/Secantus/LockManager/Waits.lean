/-
  What a call of `acquire` waits for: a hold. No wakeup is lost: a call that waits is in the queue of its resource
  unless it converts, and the first in a queue is granted as it wakes where no hold of another owner conflicts.
-/
import Secantus.LockManager.Fair

namespace Secantus.LockManager.System

open State

variable {w : System}

/-- A call that waits is in its resource's queue, unless it converts. -/
def Queued (w : System) : Prop :=
  ∀ wt ∈ w.waiting, wt.converting = false → ⟨wt.ticket, wt.owner, wt.mode⟩ ∈ (w.head wt.resource).queue

theorem Queued.acquire (h : w.Queued) (owner : Owner) (r : Resource) (mode : Mode) :
    (w.step (.acquire owner r mode)).Queued := by
  have hkept : ∀ hd : Head, (w.head r).queue ⊆ hd.queue → ∀ n, ∀ wt ∈ w.waiting, wt.converting = false →
      (⟨wt.ticket, wt.owner, wt.mode⟩ : Request) ∈
        (({ w.state.setHead r hd with nextTicket := n } : State).heads wt.resource).queue := by
    intro hd hsub n wt hwt hconv
    show _ ∈ ((w.state.setHead r hd).heads wt.resource).queue
    rw [heads_setHead]
    split
    · rename_i hr
      exact hsub (hr ▸ h wt hwt hconv)
    · exact h wt hwt hconv
  rcases w.state.ask_cases owner r mode with ⟨hask, -, -⟩ | hask
  · simp only [step, hask]
    exact hkept ((w.head r).hold owner mode) (List.Subset.refl _) _
  · simp only [step, hask]
    intro wt hwt hconv
    have hqueue := (w.head r).queue_enqueue ⟨w.state.nextTicket, owner, mode⟩
    rcases List.mem_cons.mp hwt with rfl | hwt
    · show _ ∈ ((w.state.setHead r _).heads r).queue
      rw [heads_setHead, if_pos rfl, Head.enqueue, if_neg (by simpa using hconv)]
      exact List.mem_append_right _ List.mem_cons_self
    · refine hkept _ (fun q hq => ?_) _ wt hwt hconv
      rcases hqueue with heq | ⟨-, heq⟩
      · exact heq ▸ hq
      · exact heq ▸ List.mem_append_left _ hq

/-- Of the calls that wait only the one that wakes leaves its queue, and it waits no more. -/
theorem Queued.leave (h : w.Queued) (hc : w.Consistent) {wt : Wait} {hd : Head} (hwt : wt ∈ w.waiting)
    (hqueue : hd.queue = ((w.head wt.resource).leave wt.ticket).queue) :
    Queued ⟨w.state.setHead wt.resource hd, w.waiting.erase wt⟩ := by
  intro wt' hwt' hconv
  have hnodup : w.waiting.Nodup := hc.distinct.imp fun hne heq => hne (congrArg Wait.ticket heq)
  obtain ⟨hne, hmem⟩ := hnodup.mem_erase_iff.mp hwt'
  have hq := h wt' hmem hconv
  show _ ∈ ((w.state.setHead wt.resource hd).heads wt'.resource).queue
  rw [heads_setHead]
  split
  · rename_i hr
    rw [hqueue]
    refine List.mem_filter.mpr ⟨hr ▸ hq, decide_eq_true fun heq => hne ?_⟩
    exact hc.eq_of_ticket hmem hwt heq
  · exact hq

theorem Queued.step (h : w.Queued) (hc : w.Consistent) (mv : Move) : (w.step mv).Queued := by
  have hloosened : ∀ s : State, s.Loosened w.state → Queued ⟨s, w.waiting⟩ := by
    intro s hs wt hwt hconv
    show _ ∈ (s.heads wt.resource).queue
    rw [hs.queue]
    exact h wt hwt hconv
  cases mv with
  | acquire owner r mode => exact h.acquire owner r mode
  | wake wt expired =>
    simp only [System.step]
    split
    · rename_i hwt
      rcases w.state.poll_cases wt expired with ⟨hpoll, -⟩ | hpoll | hpoll
      · rw [hpoll]
        exact h.leave hc hwt rfl
      · rw [hpoll]
        exact h.leave hc hwt rfl
      · rw [hpoll]
        exact h
    · exact h
  | release owner => exact hloosened _ (loosened_release _ owner)
  | releaseHolds owner chain => exact hloosened _ (loosened_releaseHolds _ owner chain)

theorem queued_run (moves : List Move) : (opened.run moves).Consistent ∧ (opened.run moves).Queued :=
  Library.run_invariant System.step (P := fun w => w.Consistent ∧ w.Queued)
    (fun _ mv hw => ⟨hw.1.step mv, hw.2.step hw.1 mv⟩) moves opened
    ⟨consistent_opened, fun _ hwt => absurd hwt List.not_mem_nil⟩

theorem exists_hold_of_blocks {hd : Head} {owner : Owner} {mode : Mode} (h : hd.blocks owner mode = true) :
    ∃ e ∈ hd.holders, e.1 ≠ owner ∧ mode.conflictsWith e.2 = true := by
  obtain ⟨e, he, hblocks⟩ := List.any_eq_true.mp h
  rw [Bool.and_eq_true, decide_eq_true_eq] at hblocks
  exact ⟨e, he, hblocks⟩

/-- After any calls in any order, of the calls that wait for a resource one that asked no later is granted as it
wakes, or waits for a hold of another owner. -/
theorem waits_for_a_hold (moves : List Move) {wt : Wait} (hwt : wt ∈ (opened.run moves).waiting) :
    let w := opened.run moves
    ∃ first ∈ w.waiting, first.resource = wt.resource ∧ first.ticket ≤ wt.ticket ∧
      (w.state.ready first = true ∨
        ∃ e ∈ (w.head wt.resource).holders, e.1 ≠ first.owner ∧ first.mode.conflictsWith e.2 = true) := by
  intro w
  obtain ⟨hc, hqueued⟩ : w.Consistent ∧ w.Queued := queued_run moves
  have hreason : ∀ first : Wait, w.state.ready first = !(w.head wt.resource).blocks first.owner first.mode →
      w.state.ready first = true ∨
        ∃ e ∈ (w.head wt.resource).holders, e.1 ≠ first.owner ∧ first.mode.conflictsWith e.2 = true := by
    intro first hready
    cases hblocks : (w.head wt.resource).blocks first.owner first.mode with
    | false => exact Or.inl (by rw [hready, hblocks]; rfl)
    | true => exact Or.inr (exists_hold_of_blocks hblocks)
  cases hconv : wt.converting with
  | true =>
    refine ⟨wt, hwt, rfl, Nat.le_refl _, hreason wt ?_⟩
    rw [State.ready, if_pos hconv]
    rfl
  | false =>
    have hq := hqueued wt hwt hconv
    cases hqueue : (w.head wt.resource).queue with
    | nil =>
      rw [hqueue] at hq
      cases hq
    | cons q queue =>
      have hfirst := hc.queued wt.resource q (hqueue ▸ List.mem_cons_self)
      refine ⟨_, hfirst, rfl, ?_, hreason _ ?_⟩
      · have hsorted := hc.sorted wt.resource
        rw [hqueue] at hq hsorted
        rcases List.mem_cons.mp hq with heq | hq
        · exact Nat.le_of_eq (congrArg Request.ticket heq).symm
        · exact Nat.le_of_lt ((List.pairwise_cons.mp hsorted).1 _ hq)
      · show (w.head wt.resource).grantable q.ticket = _
        rw [Head.grantable, hqueue, Head.grantableAfter, List.any_nil, Bool.or_false, if_pos rfl]
        cases (w.head wt.resource).blocks q.owner q.mode <;> rfl

theorem waits_for_a_hold_two :
    let w := opened.run [.acquire (.transaction 1) .global .ix, .acquire (.statement 2) .global .x]
    ∃ first ∈ w.waiting, first.resource = .global ∧ first.ticket ≤ 1 ∧
      (w.state.ready first = true ∨
        ∃ e ∈ (w.head .global).holders, e.1 ≠ first.owner ∧ first.mode.conflictsWith e.2 = true) :=
  waits_for_a_hold _ (show Wait.mk 1 (.statement 2) .global .x false ∈ _ by decide)

end Secantus.LockManager.System
