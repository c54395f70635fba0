/-
  The lock manager is safe and fair: whatever the calls and in whatever order, two owners never hold one
  resource in conflicting modes, a request that found its owner without the resource is not granted ahead of
  an earlier one that conflicts with it, and a call that returns `Err` leaves nothing behind.
-/
import Mathlib.Data.List.Pairwise
import Secantus.Library.Merge
import Secantus.LockManager.State

namespace Secantus.LockManager

open Secantus.Library

/-! ## One resource -/

namespace Head

/-- Two owners hold no conflicting modes. -/
def Compatible (h : Head) : Prop :=
  ∀ e ∈ h.holders, ∀ e' ∈ h.holders, e.1 ≠ e'.1 → e.2.conflictsWith e'.2 = false

theorem not_conflicts_of_not_blocks {h : Head} {owner : Owner} {mode : Mode}
    (hfree : h.blocks owner mode = false) {e : Owner × Mode} (he : e ∈ h.holders) (hne : e.1 ≠ owner) :
    mode.conflictsWith e.2 = false := by
  unfold blocks at hfree
  have := List.any_eq_false.mp hfree e he
  simpa [hne] using this

theorem Compatible.hold {h : Head} (hc : h.Compatible) {owner : Owner} {mode : Mode}
    (hfree : h.blocks owner mode = false) : (h.hold owner mode).Compatible := by
  intro e he e' he' hne
  rcases List.mem_append.mp he with he | he <;> rcases List.mem_append.mp he' with he' | he'
  · exact hc e he e' he' hne
  · obtain rfl := List.mem_singleton.mp he'
    rw [Mode.conflictsWith_comm]
    exact not_conflicts_of_not_blocks hfree he hne
  · obtain rfl := List.mem_singleton.mp he
    exact not_conflicts_of_not_blocks hfree he' hne.symm
  · obtain rfl := List.mem_singleton.mp he
    obtain rfl := List.mem_singleton.mp he'
    exact absurd rfl hne

theorem Compatible.subset {h h' : Head} (hc : h.Compatible) (hsub : h'.holders ⊆ h.holders) :
    h'.Compatible :=
  fun e he e' he' => hc e (hsub he) e' (hsub he')

theorem releaseOne_subset (h : Head) (owner : Owner) (mode : Mode) :
    (h.releaseOne owner mode).holders ⊆ h.holders := by
  intro e he
  have := List.mem_of_mem_erase (List.mem_reverse.mp he)
  exact List.mem_reverse.mp this

theorem holders_enqueue (h : Head) (q : Request) : (h.enqueue q).holders = h.holders := by
  unfold enqueue
  split <;> rfl

theorem queue_enqueue (h : Head) (q : Request) :
    (h.enqueue q).queue = h.queue ∨ h.holds q.owner = false ∧ (h.enqueue q).queue = h.queue ++ [q] := by
  unfold enqueue
  cases hholds : h.holds q.owner with
  | true => exact Or.inl rfl
  | false => exact Or.inr ⟨rfl, rfl⟩

/-- The request that is let through is the first with its ticket, is blocked by no holder, and conflicts with
none of those before it. -/
theorem grantableAfter_spec (h : Head) {ticket : ℕ} {granted : List (Owner × Mode)} {queue : List Request}
    (hg : h.grantableAfter ticket granted queue = true) :
    ∃ before q after, queue = before ++ q :: after ∧ q.ticket = ticket ∧
      h.blocks q.owner q.mode = false ∧
      ∀ e ∈ granted ++ before.map fun p => (p.owner, p.mode),
        e.1 ≠ q.owner → q.mode.conflictsWith e.2 = false := by
  induction queue generalizing granted with
  | nil => cases hg
  | cons q queue ih =>
    rw [grantableAfter] at hg
    split at hg
    · cases hg
    · rename_i hfree
      obtain ⟨hblocks, hgranted⟩ := Bool.or_eq_false_iff.mp (Bool.eq_false_iff.mpr hfree)
      split at hg
      · rename_i hticket
        refine ⟨[], q, queue, rfl, hticket, hblocks, fun e he hne => ?_⟩
        rw [List.map_nil, List.append_nil] at he
        simpa [hne] using List.any_eq_false.mp hgranted e he
      · obtain ⟨before, q', after, rfl, hticket, hblocks', hbefore⟩ := ih hg
        refine ⟨q :: before, q', after, rfl, hticket, hblocks', fun e he hne => hbefore e ?_ hne⟩
        rw [List.append_assoc]
        exact he

end Head

/-! ## What a move does -/

namespace State

theorem heads_setHead (s : State) (r r' : Resource) (h : Head) :
    (s.setHead r h).heads r' = if r' = r then h else s.heads r' := by
  show Function.update s.heads r h r' = _
  rw [Function.update_apply]

/-- `ask` takes a lock that nothing blocks, of a resource that nobody waits for or its owner holds; or it takes
none, and queues unless the owner holds the resource. -/
theorem ask_cases (s : State) (owner : Owner) (r : Resource) (mode : Mode) :
    (s.ask owner r mode = (s.setHead r ((s.heads r).hold owner mode), none) ∧
        (s.heads r).blocks owner mode = false ∧ ((s.heads r).queue = [] ∨ (s.heads r).holds owner = true)) ∨
      s.ask owner r mode =
        ({ s.setHead r ((s.heads r).enqueue ⟨s.nextTicket, owner, mode⟩) with nextTicket := s.nextTicket + 1 },
          some ⟨s.nextTicket, owner, r, mode, (s.heads r).holds owner⟩) := by
  unfold ask
  by_cases hfree : (!(s.heads r).blocks owner mode && ((s.heads r).queue.isEmpty || (s.heads r).holds owner))
  · refine Or.inl ⟨by simp only [hfree, if_true], ?_⟩
    simpa using hfree
  · exact Or.inr (by simp only [hfree]; rfl)

/-- A waking call takes its lock, or gives up, or goes on waiting. -/
theorem poll_cases (s : State) (w : Wait) (expired : Bool) :
    (s.poll w expired =
        (s.setHead w.resource (((s.heads w.resource).leave w.ticket).hold w.owner w.mode), .granted) ∧
        s.ready w = true) ∨
      s.poll w expired = (s.setHead w.resource ((s.heads w.resource).leave w.ticket), .expired) ∨
      s.poll w expired = (s, .waits) := by
  unfold poll
  by_cases hready : s.ready w = true
  · exact Or.inl ⟨by rw [if_pos hready], hready⟩
  · rw [if_neg hready]
    cases expired with
    | true => exact Or.inr (Or.inl rfl)
    | false => exact Or.inr (Or.inr rfl)

/-- Holds are let go, and nothing else changes. -/
structure Loosened (s' s : State) : Prop where
  nextTicket : s'.nextTicket = s.nextTicket
  queue : ∀ r, (s'.heads r).queue = (s.heads r).queue
  holders : ∀ r, (s'.heads r).holders ⊆ (s.heads r).holders

theorem loosened_release (s : State) (owner : Owner) : (s.release owner).Loosened s :=
  ⟨rfl, fun _ => rfl, fun _ _ he => List.mem_of_mem_filter he⟩

theorem loosened_releaseHold (s : State) (owner : Owner) (link : Resource × Mode) :
    (s.releaseHold owner link).Loosened s := by
  refine ⟨rfl, fun r => ?_, fun r => ?_⟩
  · unfold releaseHold
    rw [heads_setHead]
    split
    · rename_i h
      rw [h]
      rfl
    · rfl
  · unfold releaseHold
    rw [heads_setHead]
    split
    · rename_i h
      rw [h]
      exact Head.releaseOne_subset _ _ _
    · exact fun _ he => he

theorem loosened_releaseHolds (s : State) (owner : Owner) (chain : List (Resource × Mode)) :
    (s.releaseHolds owner chain).Loosened s := by
  induction chain generalizing s with
  | nil => exact ⟨rfl, fun _ => rfl, fun _ _ he => he⟩
  | cons link chain ih =>
    have h := ih (s.releaseHold owner link)
    have h' := s.loosened_releaseHold owner link
    exact ⟨h.nextTicket.trans h'.nextTicket, fun r => (h.queue r).trans (h'.queue r),
      fun r e he => h'.holders r (h.holders r he)⟩

end State

/-! ## What holds in every reachable state -/

namespace System

open State

/-- The entries of the queues are those of the calls that wait without the resource, in the order of their
tickets, and two calls have two tickets. -/
structure Consistent (w : System) : Prop where
  compatible : ∀ r, (w.head r).Compatible
  sorted : ∀ r, (w.head r).queue.Pairwise fun q q' => q.ticket < q'.ticket
  queued : ∀ r, ∀ q ∈ (w.head r).queue, ⟨q.ticket, q.owner, r, q.mode, false⟩ ∈ w.waiting
  below : ∀ wt ∈ w.waiting, wt.ticket < w.state.nextTicket
  distinct : w.waiting.Pairwise fun wt wt' => wt.ticket ≠ wt'.ticket

theorem consistent_opened : opened.Consistent where
  compatible := by
    intro r e he
    cases he
  sorted _ := List.Pairwise.nil
  queued := by
    intro r q hq
    cases hq
  below := by
    intro wt hwt
    cases hwt
  distinct := List.Pairwise.nil

namespace Consistent

variable {w : System}

theorem eq_of_ticket (h : w.Consistent) {wt wt' : Wait} (hwt : wt ∈ w.waiting) (hwt' : wt' ∈ w.waiting)
    (heq : wt.ticket = wt'.ticket) : wt = wt' := by
  have : Std.Symm fun wt wt' : Wait => wt.ticket ≠ wt'.ticket := ⟨fun _ _ hd => hd.symm⟩
  by_contra hne
  exact h.distinct.forall hwt hwt' hne heq

theorem queued_below (h : w.Consistent) {r : Resource} {q : Request} (hq : q ∈ (w.head r).queue) :
    q.ticket < w.state.nextTicket :=
  h.below _ (h.queued r q hq)

theorem entry_eq (h : w.Consistent) {wt : Wait} (hwt : wt ∈ w.waiting) {r : Resource} {q : Request}
    (hq : q ∈ (w.head r).queue) (hticket : q.ticket = wt.ticket) :
    wt = ⟨q.ticket, q.owner, r, q.mode, false⟩ :=
  h.eq_of_ticket hwt (h.queued r q hq) hticket.symm

/-- A request that is ready is blocked by no holder and, unless it converts, conflicts with no earlier one. -/
theorem of_ready (h : w.Consistent) {wt : Wait} (hwt : wt ∈ w.waiting) (hready : w.state.ready wt = true) :
    (w.head wt.resource).blocks wt.owner wt.mode = false ∧
      (wt.converting = false → ∀ q ∈ (w.head wt.resource).queue, q.ticket < wt.ticket →
        q.owner ≠ wt.owner → wt.mode.conflictsWith q.mode = false) := by
  unfold State.ready at hready
  cases hconv : wt.converting with
  | true =>
    rw [hconv, if_pos rfl] at hready
    exact ⟨(Bool.not_eq_true' _).mp hready, fun hc => by cases hc⟩
  | false =>
    rw [hconv, if_neg Bool.false_ne_true] at hready
    obtain ⟨before, q, after, hqueue, hticket, hblocks, hbefore⟩ := Head.grantableAfter_spec _ hready
    have hq : q ∈ (w.head wt.resource).queue := by
      show q ∈ (w.state.heads wt.resource).queue
      rw [hqueue]
      exact List.mem_append_right _ List.mem_cons_self
    have hown := h.entry_eq hwt hq hticket
    have howner : wt.owner = q.owner := congrArg Wait.owner hown
    have hmode : wt.mode = q.mode := congrArg Wait.mode hown
    refine ⟨by rw [howner, hmode]; exact hblocks, fun _ p hp hlt hne => ?_⟩
    rw [hmode]
    refine hbefore (p.owner, p.mode) (List.mem_map.mpr ⟨p, ?_, rfl⟩) (howner ▸ hne)
    -- the queue is in the order of the tickets, so `p` stands before `q`
    have hsorted := h.sorted wt.resource
    change p ∈ (w.state.heads wt.resource).queue at hp
    change (w.state.heads wt.resource).queue.Pairwise _ at hsorted
    rw [hqueue] at hp hsorted
    rcases List.mem_append.mp hp with hp | hp
    · exact hp
    · have hle : q.ticket ≤ p.ticket := by
        rcases List.mem_cons.mp hp with rfl | hp
        · exact Nat.le_refl _
        · exact Nat.le_of_lt ((List.pairwise_cons.mp (List.pairwise_append.mp hsorted).2.1).1 p hp)
      omega

theorem loosened (h : w.Consistent) {s : State} (hs : s.Loosened w.state) : Consistent ⟨s, w.waiting⟩ where
  compatible r := (h.compatible r).subset (hs.holders r)
  sorted := by
    intro r
    show (s.heads r).queue.Pairwise _
    rw [hs.queue]
    exact h.sorted r
  queued := by
    intro r q hq
    change q ∈ (s.heads r).queue at hq
    rw [hs.queue] at hq
    exact h.queued r q hq
  below := by
    intro wt hwt
    show wt.ticket < s.nextTicket
    rw [hs.nextTicket]
    exact h.below wt hwt
  distinct := h.distinct

/-- One resource's head changes: its holders stay compatible, and its queue loses no order. -/
theorem setHead (h : w.Consistent) {r : Resource} {hd : Head} {waiting : List Wait}
    (hcompat : hd.Compatible) (hqueue : hd.queue.Sublist (w.head r).queue) (hsub : waiting.Sublist w.waiting)
    (hkept : ∀ q ∈ hd.queue, ⟨q.ticket, q.owner, r, q.mode, false⟩ ∈ waiting)
    (hothers : ∀ r', r' ≠ r → ∀ q ∈ (w.head r').queue, ⟨q.ticket, q.owner, r', q.mode, false⟩ ∈ waiting) :
    Consistent ⟨w.state.setHead r hd, waiting⟩ := by
  have heads : ∀ r', (System.mk (w.state.setHead r hd) waiting).head r' = if r' = r then hd else w.head r' :=
    fun r' => heads_setHead _ _ _ _
  refine ⟨fun r' => ?_, fun r' => ?_, fun r' q hq => ?_, fun wt hwt => h.below wt (hsub.subset hwt),
    h.distinct.sublist hsub⟩
  · rw [heads]
    split
    · exact hcompat
    · exact h.compatible r'
  · rw [heads]
    split
    · exact (h.sorted r).sublist hqueue
    · exact h.sorted r'
  · rw [heads] at hq
    split at hq
    · rename_i heq
      exact heq ▸ hkept q hq
    · rename_i hne
      exact hothers r' hne q hq

theorem acquire (h : w.Consistent) (owner : Owner) (r : Resource) (mode : Mode) :
    (w.step (.acquire owner r mode)).Consistent := by
  rcases w.state.ask_cases owner r mode with ⟨hask, hfree, -⟩ | hask
  · simp only [step, hask]
    exact h.setHead ((h.compatible r).hold hfree) (List.Sublist.refl _) (List.Sublist.refl _) (h.queued r)
      fun r' _ => h.queued r'
  · simp only [step, hask]
    -- a new ticket, at the end of the queue unless the owner holds the resource
    have heads : ∀ r', (w.state.setHead r ((w.state.heads r).enqueue ⟨w.state.nextTicket, owner, mode⟩)).heads r' =
        if r' = r then (w.head r).enqueue ⟨w.state.nextTicket, owner, mode⟩ else w.head r' :=
      fun r' => heads_setHead _ _ _ _
    refine ⟨fun r' => ?_, fun r' => ?_, fun r' q hq => ?_, fun wt hwt => ?_, ?_⟩
    · refine (h.compatible r').subset ?_
      show (State.heads _ r').holders ⊆ _
      rw [heads]
      split
      · rename_i heq
        rw [Head.holders_enqueue, heq]
        exact fun _ he => he
      · exact fun _ he => he
    · show (State.heads _ r').queue.Pairwise _
      rw [heads]
      split
      · rcases (w.head r).queue_enqueue ⟨w.state.nextTicket, owner, mode⟩ with heq | ⟨-, heq⟩
        · rw [heq]
          exact h.sorted r
        · rw [heq]
          refine List.pairwise_append.mpr ⟨h.sorted r, List.pairwise_singleton _ _, fun q hq q' hq' => ?_⟩
          obtain rfl := List.mem_singleton.mp hq'
          exact h.queued_below hq
      · exact h.sorted r'
    · change q ∈ (State.heads _ r').queue at hq
      rw [heads] at hq
      split at hq
      · rename_i hr
        subst hr
        rcases (w.head r').queue_enqueue ⟨w.state.nextTicket, owner, mode⟩ with heq | ⟨hholds, heq⟩
        · rw [heq] at hq
          exact List.mem_cons_of_mem _ (h.queued r' q hq)
        · rw [heq] at hq
          rcases List.mem_append.mp hq with hq | hq
          · exact List.mem_cons_of_mem _ (h.queued r' q hq)
          · obtain rfl := List.mem_singleton.mp hq
            change (w.state.heads r').holds owner = false at hholds
            rw [hholds]
            exact List.mem_cons_self
      · exact List.mem_cons_of_mem _ (h.queued r' q hq)
    · rcases List.mem_cons.mp hwt with rfl | hwt
      · exact Nat.lt_succ_self _
      · exact Nat.lt_succ_of_lt (h.below wt hwt)
    · exact List.pairwise_cons.mpr ⟨fun wt hwt => (Nat.ne_of_lt (h.below wt hwt)).symm, h.distinct⟩

/-- A call leaves: its ticket is in no queue, and the others wait on. -/
theorem leave (h : w.Consistent) {wt : Wait} {hd : Head} (hcompat : hd.Compatible)
    (hqueue : hd.queue = ((w.head wt.resource).leave wt.ticket).queue) :
    Consistent ⟨w.state.setHead wt.resource hd, w.waiting.erase wt⟩ := by
  have hstays : ∀ {wt' : Wait}, wt' ∈ w.waiting → wt' ≠ wt → wt' ∈ w.waiting.erase wt :=
    fun hwt' hne => (List.mem_erase_of_ne hne).mpr hwt'
  have hsub : hd.queue.Sublist (w.head wt.resource).queue := hqueue ▸ List.filter_sublist
  refine h.setHead hcompat hsub List.erase_sublist (fun q hq => ?_) fun r' hne q hq => ?_
  · rw [hqueue] at hq
    obtain ⟨hq, hticket⟩ := List.mem_filter.mp hq
    refine hstays (h.queued _ q hq) fun heq => ?_
    exact absurd (congrArg Wait.ticket heq) (by simpa using hticket)
  · refine hstays (h.queued r' q hq) fun heq => ?_
    exact hne (congrArg Wait.resource heq)

theorem wake (h : w.Consistent) (wt : Wait) (expired : Bool) : (w.step (.wake wt expired)).Consistent := by
  simp only [step]
  split
  · rename_i hwt
    rcases w.state.poll_cases wt expired with ⟨hpoll, hready⟩ | hpoll | hpoll
    · rw [hpoll]
      exact h.leave (Head.Compatible.hold (h := (w.head wt.resource).leave wt.ticket)
        (h.compatible wt.resource) (h.of_ready hwt hready).1) rfl
    · rw [hpoll]
      exact h.leave (h.compatible wt.resource) rfl
    · rw [hpoll]
      exact h
  · exact h

theorem step (h : w.Consistent) (mv : Move) : (w.step mv).Consistent := by
  cases mv with
  | acquire owner r mode => exact h.acquire owner r mode
  | wake wt expired => exact h.wake wt expired
  | release owner => exact h.loosened (loosened_release _ owner)
  | releaseHolds owner chain => exact h.loosened (loosened_releaseHolds _ owner chain)

theorem run (h : w.Consistent) (moves : List Move) : (w.run moves).Consistent :=
  run_invariant System.step (P := Consistent) (fun _ mv hw => hw.step mv) moves w h

end Consistent

/-! ## A call that ends -/

theorem stillWaiting_subset (waiting : List Wait) (wt : Wait) (out : Wake) :
    stillWaiting waiting wt out ⊆ waiting := by
  cases out with
  | granted | expired => exact fun _ h => List.mem_of_mem_erase h
  | waits => exact fun _ h => h

/-- No call waits with a ticket handed out before. -/
def Gone (w : System) (ticket : ℕ) : Prop :=
  ticket < w.state.nextTicket ∧ ∀ wt ∈ w.waiting, wt.ticket ≠ ticket

theorem nextTicket_poll (s : State) (wt : Wait) (expired : Bool) :
    (s.poll wt expired).1.nextTicket = s.nextTicket := by
  rcases s.poll_cases wt expired with ⟨hpoll, -⟩ | hpoll | hpoll <;> rw [hpoll] <;> rfl

theorem Gone.step {w : System} {ticket : ℕ} (h : w.Gone ticket) (mv : Move) : (w.step mv).Gone ticket := by
  obtain ⟨hlt, hgone⟩ := h
  cases mv with
  | acquire owner r mode =>
    rcases w.state.ask_cases owner r mode with ⟨hask, -, -⟩ | hask
    · simp only [System.step, hask]
      exact ⟨hlt, hgone⟩
    · simp only [System.step, hask]
      refine ⟨Nat.lt_succ_of_lt hlt, fun wt hwt => ?_⟩
      rcases List.mem_cons.mp hwt with rfl | hwt
      · exact (Nat.ne_of_lt hlt).symm
      · exact hgone wt hwt
  | wake wt expired =>
    simp only [System.step]
    split
    · exact ⟨by rw [nextTicket_poll]; exact hlt, fun wt' hwt' => hgone wt' (stillWaiting_subset _ _ _ hwt')⟩
    · exact ⟨hlt, hgone⟩
  | release owner => exact ⟨hlt, hgone⟩
  | releaseHolds owner chain =>
    refine ⟨?_, hgone⟩
    show ticket < (w.state.releaseHolds owner chain).nextTicket
    rw [(loosened_releaseHolds _ owner chain).nextTicket]
    exact hlt

theorem Gone.run {w : System} {ticket : ℕ} (h : w.Gone ticket) (moves : List Move) :
    (w.run moves).Gone ticket :=
  run_invariant System.step (P := fun w => w.Gone ticket) (fun _ mv hw => hw.step mv) moves w h

theorem refuses_cases {w : System} {mv : Move} {req : Wait} (h : w.refuses mv = some req) :
    ∃ expired, mv = .wake req expired ∧ req ∈ w.waiting ∧ (w.state.poll req expired).2 = .expired := by
  cases mv with
  | wake wt expired =>
    simp only [refuses] at h
    split at h
    · rename_i hw
      obtain rfl := Option.some.inj h
      exact ⟨expired, rfl, hw⟩
    · cases h
  | acquire owner r mode => cases h
  | release owner => cases h
  | releaseHolds owner chain => cases h

theorem Consistent.gone_of_refuses {w : System} (h : w.Consistent) {mv : Move} {req : Wait}
    (hrefuse : w.refuses mv = some req) : (w.step mv).Gone req.ticket := by
  obtain ⟨expired, rfl, hmem, hout⟩ := refuses_cases hrefuse
  simp only [System.step, if_pos hmem]
  refine ⟨by rw [nextTicket_poll]; exact h.below req hmem, fun wt hwt heq => ?_⟩
  rw [hout] at hwt
  have hsame : wt = req := h.eq_of_ticket (List.mem_of_mem_erase hwt) hmem heq
  have hnodup : w.waiting.Nodup := h.distinct.imp fun hne heq => hne (congrArg Wait.ticket heq)
  exact absurd (hsame ▸ hwt) (hnodup.not_mem_erase)

theorem holders_of_not_grants {w : System} {mv : Move} (hmv : mv.acquires = true) (h : w.grants mv = none)
    (r : Resource) : ((w.step mv).head r).holders = (w.head r).holders := by
  cases mv with
  | acquire owner r' mode =>
    rcases w.state.ask_cases owner r' mode with ⟨hask, -, -⟩ | hask
    · simp only [grants, hask] at h
      cases h
    · simp only [System.step, hask]
      show (State.heads (w.state.setHead _ _) r).holders = _
      rw [heads_setHead]
      split
      · rename_i heq
        rw [Head.holders_enqueue, heq]
        rfl
      · rfl
  | wake wt expired =>
    simp only [System.step]
    split
    · rename_i hmem
      show ((w.state.poll wt expired).1.heads r).holders = _
      rcases w.state.poll_cases wt expired with ⟨hpoll, -⟩ | hpoll | hpoll
      · simp only [grants, hpoll, hmem, and_self, if_true] at h
        cases h
      · rw [hpoll, heads_setHead]
        split
        · rename_i heq
          rw [heq]
          rfl
        · rfl
      · rw [hpoll]
        rfl
    · rfl
  | release owner => cases hmv
  | releaseHolds owner chain => cases hmv

theorem grants_of_refuses {w : System} {mv : Move} {req : Wait} (h : w.refuses mv = some req) :
    mv.acquires = true ∧ w.grants mv = none := by
  obtain ⟨expired, rfl, -, hout⟩ := refuses_cases h
  refine ⟨rfl, ?_⟩
  show (if req ∈ w.waiting ∧ (w.state.poll req expired).2 = .granted then some req else none) = none
  rw [hout]
  exact if_neg fun hw => by cases hw.2

/-- A call that did not find its owner with the resource is not granted ahead of an earlier conflicting one. -/
theorem Consistent.fair {w : System} (h : w.Consistent) {mv : Move} {req : Wait} (hgrant : w.grants mv = some req)
    (hnew : req.converting = false) {q : Request} (hq : q ∈ (w.head req.resource).queue)
    (hlt : q.ticket < req.ticket) (hne : q.owner ≠ req.owner) : req.mode.conflictsWith q.mode = false := by
  cases mv with
  | acquire owner r mode =>
    rcases w.state.ask_cases owner r mode with ⟨hask, -, hfirst⟩ | hask
    · simp only [grants, hask] at hgrant
      obtain rfl := Option.some.inj hgrant
      -- nobody waits for a resource that is taken at once
      rcases hfirst with hempty | hholds
      · change q ∈ (w.state.heads r).queue at hq
        rw [hempty] at hq
        cases hq
      · exact absurd hholds (Bool.eq_false_iff.mp hnew)
    · simp only [grants, hask] at hgrant
      cases hgrant
  | wake wt expired =>
    simp only [grants] at hgrant
    split at hgrant
    · rename_i hw
      obtain rfl := Option.some.inj hgrant
      rcases w.state.poll_cases wt expired with ⟨-, hready⟩ | hpoll | hpoll
      · exact (h.of_ready hw.1 hready).2 hnew q hq hlt hne
      · rw [hpoll] at hw
        cases hw.2
      · rw [hpoll] at hw
        cases hw.2
    · cases hgrant
  | release owner => cases hgrant
  | releaseHolds owner chain => cases hgrant

end System

end Secantus.LockManager
