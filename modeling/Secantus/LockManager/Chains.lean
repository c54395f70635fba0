/-
  Chains of locks: what a call that fails partway lets go of.

  `acquire_chain` lets go of everything its owner holds, `exclusive_round` of one hold for each link it took.
  The other calls go on meanwhile: `Turn` has the moves of others before a link is asked for, and for each
  time the call wakes the moves since and whether the deadline is spent.
-/
import Secantus.LockManager.Fair

namespace Secantus.LockManager

open Secantus.Library

/-- How a call ends, if it does. -/
inductive Answer where
  | ok
  | err
  | waits
  deriving DecidableEq

structure Turn where
  before : List Move
  wakes : List (List Move × Bool)

namespace System

/-- The loop of `acquire`. -/
def await (w : System) (wt : Wait) : List (List Move × Bool) → System × Answer
  | [] => (w, .waits)
  | (others, expired) :: wakes =>
    let w := w.run others
    let w' := w.step (.wake wt expired)
    if w.grants (.wake wt expired) = some wt then (w', .ok)
    else if w.refuses (.wake wt expired) = some wt then (w', .err)
    else w'.await wt wakes

def acquire (w : System) (owner : Owner) (r : Resource) (mode : Mode) (turn : Turn) : System × Answer :=
  let w := w.run turn.before
  match (w.state.ask owner r mode).2 with
  | none => (w.step (.acquire owner r mode), .ok)
  | some wt => (w.step (.acquire owner r mode)).await wt turn.wakes

def acquireChain (w : System) (owner : Owner) : List (Resource × Mode) → List Turn → System × Answer
  | [], _ => (w, .ok)
  | (r, mode) :: chain, turns =>
    match w.acquire owner r mode (turns.headD ⟨[], []⟩) with
    | (w, .ok) => w.acquireChain owner chain turns.tail
    | (w, .err) => (w.step (.release owner), .err)
    | (w, .waits) => (w, .waits)

/-- The loop of `exclusive_round`, with the links it has taken. -/
def exclusiveChain (w : System) (owner : Owner) :
    List (Resource × Mode) → List (Resource × Mode) → List Turn → System × Answer
  | _, [], _ => (w, .ok)
  | taken, (r, mode) :: chain, turns =>
    match w.acquire owner r mode (turns.headD ⟨[], []⟩) with
    | (w, .ok) => w.exclusiveChain owner (taken ++ [(r, mode)]) chain turns.tail
    | (w, .err) => (w.step (.releaseHolds owner taken), .err)
    | (w, .waits) => (w, .waits)

/-- The chain of `exclusive_round`. -/
def exclusiveLinks (db coll : String) : List (Resource × Mode) :=
  [(.replicationStateTransition, .ix), (.global, .ix), (.database db, .ix),
    (.collection (db ++ "." ++ coll), .x)]

/-- `exclusive_round`, by the owner of the running statement; with none it does nothing. -/
def exclusiveRound (w : System) (statement : Option Owner) (db coll : String) (turns : List Turn) :
    System × Option Answer :=
  match statement with
  | none => (w, none)
  | some owner =>
    let (w, answer) := w.exclusiveChain owner [] (exclusiveLinks db coll) turns
    (w, some answer)

/-- How many holds an owner has on a resource in a mode. -/
def held (w : System) (owner : Owner) (r : Resource) (mode : Mode) : ℕ := (w.head r).holders.count (owner, mode)

/-! ## Whose holds a move changes -/

theorem count_hold (h : Head) (owner owner' : Owner) (mode mode' : Mode) :
    (h.hold owner mode).holders.count (owner', mode') =
      h.holders.count (owner', mode') + if owner = owner' ∧ mode = mode' then 1 else 0 := by
  show (h.holders ++ [(owner, mode)]).count (owner', mode') = _
  rw [List.count_append, List.count_singleton]
  simp only [beq_iff_eq, Prod.mk.injEq]

theorem count_releaseOne (h : Head) (owner owner' : Owner) (mode mode' : Mode) :
    (h.releaseOne owner mode).holders.count (owner', mode') =
      h.holders.count (owner', mode') - if owner = owner' ∧ mode = mode' then 1 else 0 := by
  show (h.holders.reverse.erase (owner, mode)).reverse.count (owner', mode') = _
  rw [List.count_reverse, List.count_erase, List.count_reverse]
  simp only [beq_iff_eq, Prod.mk.injEq]

theorem held_releaseHolds (w : System) (owner owner' : Owner) (chain : List (Resource × Mode)) (r : Resource)
    (mode : Mode) :
    (w.step (.releaseHolds owner chain)).held owner' r mode =
      w.held owner' r mode - if owner = owner' then chain.count (r, mode) else 0 := by
  show ((w.state.releaseHolds owner chain).heads r).holders.count _ = (w.state.heads r).holders.count _ - _
  generalize w.state = s
  induction chain generalizing s with
  | nil => simp [State.releaseHolds]
  | cons link chain ih =>
    obtain ⟨r', mode'⟩ := link
    have hstep : ((s.releaseHold owner (r', mode')).heads r).holders.count (owner', mode) =
        (s.heads r).holders.count (owner', mode) -
          if owner = owner' ∧ (r', mode') = (r, mode) then 1 else 0 := by
      unfold State.releaseHold
      rw [State.heads_setHead]
      by_cases hr : r = r'
      · subst hr
        rw [if_pos rfl, count_releaseOne]
        simp
      · rw [if_neg hr, if_neg (fun h => hr (congrArg Prod.fst h.2).symm), Nat.sub_zero]
    show ((State.releaseHolds (s.releaseHold owner (r', mode')) owner chain).heads r).holders.count _ = _
    rw [ih, hstep, List.count_cons]
    by_cases howner : owner = owner'
    · by_cases hlink : (r', mode') = (r, mode)
      · simp [howner, hlink]
        omega
      · simp [howner, hlink]
    · simp [howner]

theorem held_release (w : System) (owner owner' : Owner) (r : Resource) (mode : Mode) :
    (w.step (.release owner)).held owner' r mode = if owner' = owner then 0 else w.held owner' r mode := by
  show ((w.head r).holders.filter (·.1 ≠ owner)).count (owner', mode) = _
  split
  · rename_i h
    rw [h]
    exact List.count_eq_zero.mpr fun hmem => by simpa using (List.mem_filter.mp hmem).2
  · rename_i h
    exact List.count_filter (by simpa using h)

/-- What a step of `acquire` grants is one more hold of its owner; it changes no other. -/
theorem held_acquires (w : System) {mv : Move} (hmv : mv.acquires = true) (owner : Owner) (r : Resource)
    (mode : Mode) :
    (w.step mv).held owner r mode = w.held owner r mode +
      match w.grants mv with
      | none => 0
      | some req => if req.owner = owner ∧ req.resource = r ∧ req.mode = mode then 1 else 0 := by
  cases hgrant : w.grants mv with
  | none =>
    unfold held
    rw [holders_of_not_grants hmv hgrant r]
    rfl
  | some req =>
    have hstep : ∃ hd : Head, hd.holders = (w.head req.resource).holders ∧
        (w.step mv).state = w.state.setHead req.resource (hd.hold req.owner req.mode) := by
      cases mv with
      | acquire owner' r' mode' =>
        rcases w.state.ask_cases owner' r' mode' with ⟨hask, -, -⟩ | hask
        · simp only [grants, hask] at hgrant
          obtain rfl := Option.some.inj hgrant
          exact ⟨w.head r', rfl, by simp only [step, hask]; rfl⟩
        · simp only [grants, hask] at hgrant
          cases hgrant
      | wake wt expired =>
        simp only [grants] at hgrant
        split at hgrant
        · rename_i hw
          obtain rfl := Option.some.inj hgrant
          refine ⟨(w.head wt.resource).leave wt.ticket, rfl, ?_⟩
          rcases w.state.poll_cases wt expired with ⟨hpoll, -⟩ | hpoll | hpoll
          · simp only [step, if_pos hw.1, hpoll]
            rfl
          · rw [hpoll] at hw
            cases hw.2
          · rw [hpoll] at hw
            cases hw.2
        · cases hgrant
      | release owner => cases hmv
      | releaseHolds owner chain => cases hmv
    obtain ⟨hd, hholders, hstate⟩ := hstep
    show ((w.step mv).state.heads r).holders.count _ = _
    rw [hstate, State.heads_setHead]
    by_cases hr : r = req.resource
    · subst hr
      rw [if_pos rfl, count_hold, hholders]
      simp only [true_and]
      rfl
    · rw [if_neg hr]
      simp only [Ne.symm hr, false_and, and_false, if_false, Nat.add_zero]
      rfl

theorem owner_of_grants {w : System} {mv : Move} {req : Wait} (h : w.grants mv = some req) :
    req.owner = mv.owner := by
  cases mv with
  | acquire owner r mode =>
    simp only [grants] at h
    split at h
    · rw [← Option.some.inj h]
      rfl
    · cases h
  | wake wt expired =>
    simp only [grants] at h
    split at h
    · rw [← Option.some.inj h]
      rfl
    · cases h
  | release owner => cases h
  | releaseHolds owner chain => cases h

theorem held_step_of_ne (w : System) {mv : Move} {owner : Owner} (h : mv.owner ≠ owner) (r : Resource)
    (mode : Mode) : (w.step mv).held owner r mode = w.held owner r mode := by
  cases mv with
  | acquire owner' r' mode' =>
    rw [held_acquires w rfl]
    split
    · rfl
    · rename_i req hgrant
      rw [if_neg fun hreq => h ((owner_of_grants hgrant).symm.trans hreq.1), Nat.add_zero]
  | wake wt expired =>
    rw [held_acquires w rfl]
    split
    · rfl
    · rename_i req hgrant
      rw [if_neg fun hreq => h ((owner_of_grants hgrant).symm.trans hreq.1), Nat.add_zero]
  | release owner' =>
    change owner' ≠ owner at h
    rw [held_release, if_neg h.symm]
  | releaseHolds owner' chain =>
    change owner' ≠ owner at h
    rw [held_releaseHolds, if_neg h, Nat.sub_zero]

theorem held_run_of_ne (w : System) {moves : List Move} {owner : Owner} (h : ∀ mv ∈ moves, mv.owner ≠ owner)
    (r : Resource) (mode : Mode) : (w.run moves).held owner r mode = w.held owner r mode := by
  induction moves generalizing w with
  | nil => rfl
  | cons mv moves ih =>
    show ((w.step mv).run moves).held owner r mode = _
    rw [ih (w.step mv) fun mv' hmv' => h mv' (List.mem_cons_of_mem _ hmv'),
      held_step_of_ne w (h mv List.mem_cons_self)]

/-! ## Whose holds a call changes -/

end System

/-- An owner makes none of the moves of others. -/
def Turn.Avoids (turn : Turn) (owner : Owner) : Prop :=
  (∀ mv ∈ turn.before, mv.owner ≠ owner) ∧ ∀ wake ∈ turn.wakes, ∀ mv ∈ wake.1, mv.owner ≠ owner

namespace System

theorem avoids_headD {turns : List Turn} {owner : Owner} (h : ∀ turn ∈ turns, turn.Avoids owner) :
    (turns.headD ⟨[], []⟩).Avoids owner := by
  cases turns with
  | nil => exact ⟨by simp, by simp⟩
  | cons turn turns => exact h turn List.mem_cons_self

theorem avoids_tail {turns : List Turn} {owner : Owner} (h : ∀ turn ∈ turns, turn.Avoids owner) :
    ∀ turn ∈ turns.tail, turn.Avoids owner :=
  fun turn hturn => h turn (List.mem_of_mem_tail hturn)

/-- A waiting call takes one hold if it ends with `ok`, and otherwise none. -/
theorem held_await (w : System) {wt : Wait} {wakes : List (List Move × Bool)}
    (h : ∀ wake ∈ wakes, ∀ mv ∈ wake.1, mv.owner ≠ wt.owner) (r : Resource) (mode : Mode) :
    (w.await wt wakes).1.held wt.owner r mode = w.held wt.owner r mode +
      if (w.await wt wakes).2 = .ok ∧ wt.resource = r ∧ wt.mode = mode then 1 else 0 := by
  induction wakes generalizing w with
  | nil => simp [await]
  | cons wake wakes ih =>
    obtain ⟨others, expired⟩ := wake
    have hothers := held_run_of_ne w (h _ List.mem_cons_self) r mode
    have hstep := held_acquires (w.run others) (show (Move.wake wt expired).acquires = true from rfl) wt.owner r mode
    rw [hothers] at hstep
    rw [await]
    split
    · rename_i hgrant
      rw [hgrant] at hstep
      simpa using hstep
    · rename_i hgrant
      have hnone : (w.run others).grants (.wake wt expired) = none := by
        simp only [grants] at hgrant ⊢
        split
        · rename_i hw
          rw [if_pos hw] at hgrant
          exact absurd rfl hgrant
        · rfl
      rw [hnone] at hstep
      split
      · rw [hstep]
        simp
      · rw [ih _ fun wake hwake => h wake (List.mem_cons_of_mem _ hwake), hstep]
        rfl

theorem held_await_of_ne (w : System) {wt : Wait} {wakes : List (List Move × Bool)} {owner : Owner}
    (hne : wt.owner ≠ owner) (h : ∀ wake ∈ wakes, ∀ mv ∈ wake.1, mv.owner ≠ owner) (r : Resource)
    (mode : Mode) : (w.await wt wakes).1.held owner r mode = w.held owner r mode := by
  induction wakes generalizing w with
  | nil => rfl
  | cons wake wakes ih =>
    obtain ⟨others, expired⟩ := wake
    have hothers := held_run_of_ne w (h _ List.mem_cons_self) r mode
    have hstep := held_step_of_ne (w.run others) (show (Move.wake wt expired).owner ≠ owner from hne) r mode
    rw [await]
    split
    · exact hstep.trans hothers
    · split
      · exact hstep.trans hothers
      · rw [ih _ fun wake hwake => h wake (List.mem_cons_of_mem _ hwake)]
        exact hstep.trans hothers

theorem held_acquire (w : System) {owner : Owner} {turn : Turn} (h : turn.Avoids owner) (r r' : Resource)
    (mode mode' : Mode) :
    (w.acquire owner r mode turn).1.held owner r' mode' = w.held owner r' mode' +
      if (w.acquire owner r mode turn).2 = .ok ∧ r = r' ∧ mode = mode' then 1 else 0 := by
  have hothers := held_run_of_ne w h.1 r' mode'
  have hstep := held_acquires (w.run turn.before) (show (Move.acquire owner r mode).acquires = true from rfl) owner r' mode'
  rw [hothers] at hstep
  unfold acquire
  rcases (w.run turn.before).state.ask_cases owner r mode with ⟨hask, -, -⟩ | hask
  · simp only [hask]
    simpa only [grants, hask, true_and] using hstep
  · simp only [hask]
    simp only [grants, hask, Nat.add_zero] at hstep
    rw [held_await _ h.2, hstep]

theorem held_acquire_of_ne (w : System) {owner owner' : Owner} (hne : owner ≠ owner') {turn : Turn}
    (h : turn.Avoids owner') (r r' : Resource) (mode mode' : Mode) :
    (w.acquire owner r mode turn).1.held owner' r' mode' = w.held owner' r' mode' := by
  have hothers := held_run_of_ne w h.1 r' mode'
  have hstep := held_step_of_ne (w.run turn.before) (show (Move.acquire owner r mode).owner ≠ owner' from hne) r' mode'
  unfold acquire
  rcases (w.run turn.before).state.ask_cases owner r mode with ⟨hask, -, -⟩ | hask
  · simp only [hask]
    exact hstep.trans hothers
  · simp only [hask]
    rw [held_await_of_ne _ hne h.2, hstep, hothers]

/-! ## Chains that fail -/

theorem held_acquireChain_err (w : System) {owner : Owner} {chain : List (Resource × Mode)} {turns : List Turn}
    (herr : (w.acquireChain owner chain turns).2 = .err) (r : Resource) (mode : Mode) :
    (w.acquireChain owner chain turns).1.held owner r mode = 0 := by
  induction chain generalizing w turns with
  | nil => cases herr
  | cons link chain ih =>
    obtain ⟨r', mode'⟩ := link
    rw [acquireChain] at herr ⊢
    generalize w.acquire owner r' mode' (turns.headD ⟨[], []⟩) = out at herr ⊢
    obtain ⟨w', answer⟩ := out
    cases answer with
    | ok => exact ih w' herr
    | err =>
      show (w'.step (.release owner)).held owner r mode = 0
      rw [held_release, if_pos rfl]
    | waits => cases herr

theorem held_acquireChain_of_ne (w : System) {owner owner' : Owner} (hne : owner ≠ owner')
    {chain : List (Resource × Mode)} {turns : List Turn} (h : ∀ turn ∈ turns, turn.Avoids owner')
    (r : Resource) (mode : Mode) :
    (w.acquireChain owner chain turns).1.held owner' r mode = w.held owner' r mode := by
  induction chain generalizing w turns with
  | nil => rfl
  | cons link chain ih =>
    obtain ⟨r', mode'⟩ := link
    have hacquire := held_acquire_of_ne w hne (avoids_headD h) r' r mode' mode
    rw [acquireChain]
    generalize w.acquire owner r' mode' (turns.headD ⟨[], []⟩) = out at hacquire ⊢
    obtain ⟨w', answer⟩ := out
    cases answer with
    | ok => exact (ih w' (avoids_tail h)).trans hacquire
    | err =>
      show (w'.step (.release owner)).held owner' r mode = _
      rw [held_release, if_neg hne.symm]
      exact hacquire
    | waits => exact hacquire

/-- After a failed `exclusive_round` its owner holds what it held, less what the links before had taken. -/
theorem held_exclusiveChain_err (w : System) {owner : Owner} {taken chain : List (Resource × Mode)}
    {turns : List Turn} (h : ∀ turn ∈ turns, turn.Avoids owner)
    (herr : (w.exclusiveChain owner taken chain turns).2 = .err) (r : Resource) (mode : Mode) :
    (w.exclusiveChain owner taken chain turns).1.held owner r mode =
      w.held owner r mode - taken.count (r, mode) := by
  induction chain generalizing w taken turns with
  | nil => cases herr
  | cons link chain ih =>
    obtain ⟨r', mode'⟩ := link
    have hacquire := held_acquire w (avoids_headD h) r' r mode' mode
    rw [exclusiveChain] at herr ⊢
    generalize w.acquire owner r' mode' (turns.headD ⟨[], []⟩) = out at herr hacquire ⊢
    obtain ⟨w', answer⟩ := out
    cases answer with
    | ok =>
      show (w'.exclusiveChain owner (taken ++ [(r', mode')]) chain turns.tail).1.held owner r mode = _
      rw [ih w' (avoids_tail h) herr, hacquire, List.count_append, List.count_singleton]
      by_cases hlink : r' = r ∧ mode' = mode
      · simp [hlink]
      · simp [hlink]
    | err =>
      show (w'.step (.releaseHolds owner taken)).held owner r mode = _
      rw [held_releaseHolds, if_pos rfl, hacquire]
      rfl
    | waits => cases herr

theorem held_exclusiveChain_of_ne (w : System) {owner owner' : Owner} (hne : owner ≠ owner')
    {taken chain : List (Resource × Mode)} {turns : List Turn} (h : ∀ turn ∈ turns, turn.Avoids owner')
    (r : Resource) (mode : Mode) :
    (w.exclusiveChain owner taken chain turns).1.held owner' r mode = w.held owner' r mode := by
  induction chain generalizing w taken turns with
  | nil => rfl
  | cons link chain ih =>
    obtain ⟨r', mode'⟩ := link
    have hacquire := held_acquire_of_ne w hne (avoids_headD h) r' r mode' mode
    rw [exclusiveChain]
    generalize w.acquire owner r' mode' (turns.headD ⟨[], []⟩) = out at hacquire ⊢
    obtain ⟨w', answer⟩ := out
    cases answer with
    | ok => exact (ih w' (avoids_tail h)).trans hacquire
    | err =>
      show (w'.step (.releaseHolds owner taken)).held owner' r mode = _
      rw [held_releaseHolds, if_neg hne, Nat.sub_zero]
      exact hacquire
    | waits => exact hacquire

/-- The holds of every owner are what they were before: of the caller, and of whoever made no move meanwhile. -/
def Restored (w w' : System) (turns : List Turn) (owner : Owner) : Prop :=
  ∀ owner', owner' = owner ∨ (∀ turn ∈ turns, turn.Avoids owner') →
    ∀ r mode, w'.held owner' r mode = w.held owner' r mode

/-- A failed `acquire_chain` undoes just itself exactly when its owner held nothing before; a failed
`exclusive_round` always does. -/
theorem failed_chain_restores (w : System) (owner : Owner) (turns : List Turn)
    (h : ∀ turn ∈ turns, turn.Avoids owner) :
    (∀ chain, (w.acquireChain owner chain turns).2 = .err →
        (w.Restored (w.acquireChain owner chain turns).1 turns owner ↔ ∀ r mode, w.held owner r mode = 0)) ∧
      ∀ db coll, (w.exclusiveRound (some owner) db coll turns).2 = some .err →
        w.Restored (w.exclusiveRound (some owner) db coll turns).1 turns owner := by
  refine ⟨fun chain herr => ⟨fun hrestored r mode => ?_, fun hnone owner' hidle r mode => ?_⟩, ?_⟩
  · rw [← hrestored owner (Or.inl rfl) r mode]
    exact w.held_acquireChain_err herr r mode
  · by_cases hown : owner' = owner
    · subst hown
      rw [w.held_acquireChain_err herr, hnone]
    · exact w.held_acquireChain_of_ne (Ne.symm hown) (hidle.resolve_left hown) r mode
  · intro db coll herr owner' hidle r mode
    have herr' : (w.exclusiveChain owner [] (exclusiveLinks db coll) turns).2 = .err := Option.some.inj herr
    show (w.exclusiveChain owner [] (exclusiveLinks db coll) turns).1.held owner' r mode = _
    by_cases hown : owner' = owner
    · subst hown
      rw [w.held_exclusiveChain_err h herr', List.count_nil, Nat.sub_zero]
    · exact w.held_exclusiveChain_of_ne (Ne.symm hown) (hidle.resolve_left hown) r mode

/-- One statement has the global lock, another a collection. -/
def busy : System :=
  opened.run [.acquire (.statement 1) .global .is, .acquire (.statement 2) (.collection "db.c") .x]

/-- The deadline is spent when the first statement wakes. -/
def spent : List Turn := [⟨[], []⟩, ⟨[], []⟩, ⟨[], []⟩, ⟨[], [([], true)]⟩]

theorem avoids_spent (owner : Owner) : ∀ turn ∈ spent, turn.Avoids owner := by
  simp [spent, Turn.Avoids]

theorem failed_chain_restores_busy :
    ((busy.acquireChain (.statement 1) [(.collection "db.c", .ix)] (spent.drop 3)).2 = .err ∧
        (busy.Restored (busy.acquireChain (.statement 1) [(.collection "db.c", .ix)] (spent.drop 3)).1
            (spent.drop 3) (.statement 1) ↔ ∀ r mode, busy.held (.statement 1) r mode = 0)) ∧
      (busy.exclusiveRound (some (.statement 1)) "db" "c" spent).2 = some .err ∧
      busy.Restored (busy.exclusiveRound (some (.statement 1)) "db" "c" spent).1 spent (.statement 1) :=
  ⟨⟨by decide, (failed_chain_restores busy (.statement 1) (spent.drop 3)
      fun turn h => avoids_spent _ turn (List.mem_of_mem_drop h)).1 _ (by decide)⟩,
    by decide, (failed_chain_restores busy (.statement 1) spent (avoids_spent _)).2 "db" "c"
      (by decide)⟩

/-- The first statement asks for the collection on top of the global lock, and loses both. -/
theorem acquireChain_err_not_restored :
    ¬ ∀ (w : System) (owner : Owner) (chain : List (Resource × Mode)) (turns : List Turn),
      (∀ turn ∈ turns, turn.Avoids owner) → (w.acquireChain owner chain turns).2 = .err →
        w.Restored (w.acquireChain owner chain turns).1 turns owner := by
  intro hall
  have h := hall busy (.statement 1) [(.collection "db.c", .ix)] (spent.drop 3)
    (fun turn h => avoids_spent _ turn (List.mem_of_mem_drop h)) (by decide)
  have hglobal := h (.statement 1) (Or.inl rfl) .global .is
  rw [held_acquireChain_err _ (by decide)] at hglobal
  exact absurd hglobal (by decide)

end System

end Secantus.LockManager
