/-
  An oplog emit outside any transaction (`mint_and_write` with `deferred` false): the range it mints is in
  the in-flight window while its rows are written one by one, and leaves it after the last of them.

  Every operation on the storage engine may fail, and an error returns at once. Emits run beside each other
  and beside transactions, which park their ranges and deregister them when they resolve.

  `bare_emit_left_iff`: an emit that has returned has left the window just when none of its operations failed;
  after one that has failed, every later visible tail is below its range.
-/
import Secantus.Oplog.Window

namespace Secantus.Oplog

open Secantus

/-! ## The operations of an emit -/

/-- `OplogEntry`: a document still to be encoded, or its bytes. -/
inductive OplogEntry where
  | doc (d : Document)
  | raw (b : Bytes)

/-- A fallible step on the storage engine, or of the encoding. -/
inductive Operation where
  | create (table : String)
  | openCursor (table : String)
  | encode (seq : ℤ)
  | reset (table : String)
  | insert (table : String) (seq : ℤ)
  deriving DecidableEq

/-- `PREIMAGE_TABLE`. -/
def preimageTable : String := "table:secantus_preimages"

/-- The loop over the entries: each row, and its pre-image when there is one. -/
def rowOperations (shard : String) : ℤ → Bool → List (OplogEntry × Option Bytes) → List Operation
  | _, _, [] => []
  | seq, preOpen, (entry, pre) :: rest =>
    (match entry with
      | .doc _ => [.encode seq]
      | .raw _ => []) ++
    [.reset shard, .insert shard seq] ++
    (match pre with
      | none => []
      | some _ =>
        (if preOpen then [] else [.openCursor preimageTable]) ++
          [.reset preimageTable, .insert preimageTable seq]) ++
    rowOperations shard (seq + 1) (preOpen || pre.isSome) rest

/-- What an emit does between its mint and its last lock. -/
def operations (shard : String) (created : Bool) (start : ℤ) (entries : List (OplogEntry × Option Bytes)) :
    List Operation :=
  (if created then [] else [.create shard]) ++ .openCursor shard :: rowOperations shard start false entries

/-! ## The emits of a store -/

/-- A call: its range and entries, its operations once the shard's flag is read, how many are done, and whether
    it has returned `Ok` or `Err`. -/
structure Emit where
  start : ℤ
  stop : ℤ
  entries : List (OplogEntry × Option Bytes)
  plan : Option (List Operation)
  done : ℕ
  returned : Option Bool

/-- The counters, the shards created, the calls, and the ranges that transactions have parked. -/
structure Emits where
  st : OplogState
  created : String → Bool
  calls : ℕ → Option Emit
  parked : ℕ → List (ℤ × ℤ)

inductive EmitEvent where
  /-- A call emits entries: they are minted, one clock reading each. -/
  | emit (c : ℕ) (entries : List (OplogEntry × Option Bytes)) (nows : List ℤ)
  /-- `ensure_oplog_shard` reads whether the shard is created. -/
  | ensure (c : ℕ)
  /-- The call's next operation. -/
  | operate (c : ℕ)
  /-- The call takes the lock after its last row. -/
  | settle (c : ℕ)
  /-- A transaction mints, and parks the range. -/
  | park (t : ℕ) (nows : List ℤ)
  /-- A transaction resolves. -/
  | resolve (t : ℕ)
  | prepare (now : ℤ)
  | reserve (now : ℤ)
  | release (ts : ℕ)

/-- What a done operation changes: a created table is known. -/
def noteCreated (created : String → Bool) : Option Operation → String → Bool
  | some (.create table) => Function.update created table true
  | _ => created

variable (shards : Option ℤ) (faults : ℕ → ℕ → Bool)

/-- One step; `faults c k` is whether operation `k` of call `c` fails. -/
def Emits.step (w : Emits) : EmitEvent → Emits
  | .emit c entries nows =>
    -- nothing is minted for no entries
    if (w.calls c).isNone ∧ entries ≠ [] ∧ nows.length = entries.length then
      let (st, start, _) := mintSeqAndTs w.st nows true
      let call := ⟨start, start + nows.length, entries, none, 0, none⟩
      { w with st := st, calls := Function.update w.calls c (some call) }
    else w
  | .ensure c =>
    match w.calls c with
    | some e =>
      if e.plan = none then
        let shard := oplogShardForBatch shards e.start
        let plan := operations shard (w.created shard) e.start e.entries
        { w with calls := Function.update w.calls c (some { e with plan := some plan }) }
      else w
    | none => w
  | .operate c =>
    match w.calls c with
    | some e =>
      match e.plan with
      | some plan =>
        if e.returned = none ∧ e.done < plan.length then
          if faults c e.done then { w with calls := Function.update w.calls c (some { e with returned := some false }) }
          else
            { w with
              created := noteCreated w.created plan[e.done]?
              calls := Function.update w.calls c (some { e with done := e.done + 1 }) }
        else w
      | none => w
    | none => w
  | .settle c =>
    match w.calls c with
    | some e =>
      if e.returned = none ∧ e.plan.map List.length = some e.done then
        { w with
          st := { w.st with inFlight := w.st.inFlight.erase e.start }
          calls := Function.update w.calls c (some { e with returned := some true }) }
      else w
    | none => w
  | .park t nows =>
    if nows ≠ [] then
      let (st, start, _) := mintSeqAndTs w.st nows true
      { w with st := st, parked := Function.update w.parked t (w.parked t ++ [(start, start + nows.length)]) }
    else w
  | .resolve t => { w with st := deregisterInFlight w.st (w.parked t), parked := Function.update w.parked t [] }
  | .prepare now => { w with st := (mintSeqAndTs w.st [now] false).1 }
  | .reserve now => { w with st := (reserveStamp w.st now).1 }
  | .release ts => { w with st := releaseStamp w.st ts }

def Emits.run (w : Emits) (events : List EmitEvent) : Emits := events.foldl (Emits.step shards faults) w

def Emits.opened (nextSeq secs ord : ℤ) (created : String → Bool) : Emits :=
  ⟨.opened nextSeq secs ord, created, fun _ => none, fun _ => []⟩

/-- The range of a call is not in the window. -/
def Emits.Left (w : Emits) (e : Emit) : Prop := w.st.inFlight.get e.start = none

/-! ## One step -/

/-- What a call's progress says of its operations. -/
structure Emit.Kept (faults : ℕ → Bool) (e : Emit) : Prop where
  sound : ∀ k < e.done, faults k = false
  ended : e.returned = some true → e.plan.map List.length = some e.done
  failed : e.returned = some false → ∃ plan, e.plan = some plan ∧ e.done < plan.length ∧ faults e.done = true

theorem Emit.Kept.planned {faults : ℕ → Bool} {e : Emit} (h : e.Kept faults) (hr : e.returned ≠ none) :
    e.plan ≠ none := by
  intro hplan
  cases hreturned : e.returned with
  | none => exact hr hreturned
  | some ok =>
    cases ok with
    | true =>
      have hend := h.ended hreturned
      rw [hplan] at hend
      cases hend
    | false =>
      obtain ⟨plan, hsome, -⟩ := h.failed hreturned
      rw [hplan] at hsome
      cases hsome

/-- The window beside the calls and the transactions: every range is below the next sequence and starts apart
    from the others, and only a call that returned `Ok` is out of the window. -/
structure Emits.Inv (w : Emits) : Prop where
  keys : ∀ k r, w.st.inFlight.get k = some r → k < w.st.nextSeq
  calls : ∀ c e, w.calls c = some e → e.start < w.st.nextSeq ∧ e.Kept (faults c) ∧
    (w.st.inFlight.get e.start = none ↔ e.returned = some true)
  apart : ∀ c c' e e', w.calls c = some e → w.calls c' = some e' → e.start = e'.start → c = c'
  parked : ∀ t, ∀ r ∈ w.parked t, r.1 < w.st.nextSeq ∧ ∀ c e, w.calls c = some e → e.start ≠ r.1

theorem Emits.inv_opened (nextSeq secs ord : ℤ) (created : String → Bool) :
    (Emits.opened nextSeq secs ord created).Inv faults where
  keys := fun _ _ hk => nomatch hk
  calls := fun _ _ h => nomatch h
  apart := fun _ _ _ _ h => nomatch h
  parked := fun _ _ h => nomatch h

variable {shards} {faults}

/-- The invariant is about the window, the calls and the parked ranges. -/
theorem Emits.Inv.congr {w w' : Emits} (h : w.Inv faults) (hnext : w.st.nextSeq ≤ w'.st.nextSeq)
    (hflight : w'.st.inFlight = w.st.inFlight) (hcalls : w'.calls = w.calls) (hparked : w'.parked = w.parked) :
    w'.Inv faults where
  keys := by
    rw [hflight]
    exact fun k r hk => lt_of_lt_of_le (h.keys k r hk) hnext
  calls := by
    rw [hflight, hcalls]
    intro c e he
    obtain ⟨h1, h2, h3⟩ := h.calls c e he
    exact ⟨lt_of_lt_of_le h1 hnext, h2, h3⟩
  apart := by
    rw [hcalls]
    exact h.apart
  parked := by
    rw [hcalls, hparked]
    intro t r hr
    obtain ⟨h1, h2⟩ := h.parked t r hr
    exact ⟨lt_of_lt_of_le h1 hnext, h2⟩

/-- A call that goes on, in the window or out of it as its new progress says. -/
theorem Emits.Inv.proceed {w w' : Emits} (h : w.Inv faults) {c : ℕ} {e e' : Emit} (he : w.calls c = some e)
    (hst : w'.st.nextSeq = w.st.nextSeq) (hparked : w'.parked = w.parked)
    (hcalls : w'.calls = Function.update w.calls c (some e')) (hstart : e'.start = e.start)
    (hkept : e'.Kept (faults c))
    (hget : ∀ k, w'.st.inFlight.get k = if e'.returned = some true ∧ k = e.start then none else w.st.inFlight.get k)
    (hback : e.returned = some true → e'.returned = some true) : w'.Inv faults := by
  have hcall : ∀ c' e₁, w'.calls c' = some e₁ → c' = c ∧ e₁ = e' ∨ c' ≠ c ∧ w.calls c' = some e₁ := by
    intro c' e₁ h₁
    rw [hcalls] at h₁
    by_cases hc : c' = c
    · rw [hc, Function.update_self] at h₁
      exact .inl ⟨hc, (Option.some.inj h₁).symm⟩
    · rw [Function.update_of_ne hc] at h₁
      exact .inr ⟨hc, h₁⟩
  have hold : ∀ c' e₁, w'.calls c' = some e₁ → ∃ e₂, w.calls c' = some e₂ ∧ e₂.start = e₁.start := by
    intro c' e₁ h₁
    rcases hcall c' e₁ h₁ with ⟨rfl, rfl⟩ | ⟨-, h₂⟩
    · exact ⟨e, he, hstart.symm⟩
    · exact ⟨e₁, h₂, rfl⟩
  obtain ⟨hlt, -, hout⟩ := h.calls c e he
  refine ⟨?_, ?_, ?_, ?_⟩
  · intro k r hk
    rw [hget] at hk
    rw [hst]
    split at hk
    · cases hk
    · exact h.keys k r hk
  · intro c' e₁ h₁
    rcases hcall c' e₁ h₁ with ⟨rfl, rfl⟩ | ⟨hne, h₂⟩
    · rw [hst, hstart, hget]
      refine ⟨hlt, hkept, ?_⟩
      by_cases hr : e₁.returned = some true
      · simp [hr]
      · rw [if_neg fun hand => hr hand.1, hout]
        exact iff_of_false (fun hand => hr (hback hand)) hr
    · obtain ⟨h1, h2, h3⟩ := h.calls c' e₁ h₂
      have hdiff : e₁.start ≠ e.start := fun heq => hne (h.apart c' c e₁ e h₂ he heq)
      rw [hst, hget, if_neg fun hand => hdiff hand.2]
      exact ⟨h1, h2, h3⟩
  · intro c₁ c₂ e₁ e₂ h₁ h₂ heq
    obtain ⟨e₁', h₁', hs₁⟩ := hold c₁ e₁ h₁
    obtain ⟨e₂', h₂', hs₂⟩ := hold c₂ e₂ h₂
    exact h.apart c₁ c₂ e₁' e₂' h₁' h₂' (by rw [hs₁, hs₂, heq])
  · intro t r hr
    rw [hparked] at hr
    obtain ⟨h1, h2⟩ := h.parked t r hr
    refine ⟨hst ▸ h1, fun c₁ e₁ h₁ => ?_⟩
    obtain ⟨e₂, h₂, hs⟩ := hold c₁ e₁ h₁
    rw [← hs]
    exact h2 c₁ e₂ h₂

/-- A mint registers a run at the next sequence, where nothing else starts. -/
theorem Emits.Inv.mint {w : Emits} (h : w.Inv faults) {nows : List ℤ} (hnows : nows ≠ []) {calls : ℕ → Option Emit}
    {parked : ℕ → List (ℤ × ℤ)}
    (hcalls : ∀ c e, calls c = some e → w.calls c = some e ∨
      w.calls c = none ∧ e.start = w.st.nextSeq ∧ e.returned = none ∧ e.done = 0)
    (hone : ∀ c c' e e', calls c = some e → calls c' = some e' → w.calls c = none → w.calls c' = none → c = c')
    (hparked : ∀ t, ∀ r ∈ parked t, r ∈ w.parked t ∨ r.1 = w.st.nextSeq ∧ calls = w.calls) :
    ({ w with st := (mintSeqAndTs w.st nows true).1, calls := calls, parked := parked } : Emits).Inv faults := by
  have hpos : 0 < nows.length := List.length_pos_iff.mpr hnows
  have hget := mintSeqAndTs_get w.st nows
  have hnext : (mintSeqAndTs w.st nows true).1.nextSeq = w.st.nextSeq + nows.length := mintSeqAndTs_nextSeq _ _ _
  have hlt : w.st.nextSeq < (mintSeqAndTs w.st nows true).1.nextSeq := by
    rw [hnext]
    omega
  refine ⟨?_, ?_, ?_, ?_⟩
  · intro k r hk
    dsimp only at hk ⊢
    rw [hget] at hk
    split at hk
    · rename_i heq
      rwa [← heq]
    · exact (h.keys k r hk).trans hlt
  · intro c e he
    dsimp only at he ⊢
    rw [hget]
    rcases hcalls c e he with hold | ⟨-, hstart, hreturned, hdone⟩
    · obtain ⟨h1, h2, h3⟩ := h.calls c e hold
      rw [if_neg (ne_of_gt h1)]
      exact ⟨h1.trans hlt, h2, h3⟩
    · rw [if_pos hstart.symm, hstart, hreturned]
      refine ⟨hlt, ⟨?_, ?_, ?_⟩, by simp⟩
      · rw [hdone]
        exact fun k hk => absurd hk (Nat.not_lt_zero k)
      · rw [hreturned]
        exact fun hr => nomatch hr
      · rw [hreturned]
        exact fun hr => nomatch hr
  · intro c c' e e' he he' heq
    dsimp only at he he'
    rcases hcalls c e he with hold | ⟨hnone, hstart, -⟩
    · rcases hcalls c' e' he' with hold' | ⟨-, hstart', -⟩
      · exact h.apart c c' e e' hold hold' heq
      · have := (h.calls c e hold).1
        omega
    · rcases hcalls c' e' he' with hold' | ⟨hnone', -, -⟩
      · have := (h.calls c' e' hold').1
        omega
      · exact hone c c' e e' he he' hnone hnone'
  · intro t r hr
    dsimp only at hr ⊢
    rcases hparked t r hr with hold | ⟨hstart, hsame⟩
    · obtain ⟨h1, h2⟩ := h.parked t r hold
      refine ⟨h1.trans hlt, fun c e he => ?_⟩
      rcases hcalls c e he with hcold | ⟨-, hcstart, -⟩
      · exact h2 c e hcold
      · omega
    · refine ⟨hstart ▸ hlt, fun c e he => ?_⟩
      rw [hsame] at he
      have := (h.calls c e he).1
      omega

theorem Emits.Inv.step {w : Emits} (h : w.Inv faults) (ev : EmitEvent) : (w.step shards faults ev).Inv faults := by
  cases ev with
  | emit c entries nows =>
    by_cases hok : (w.calls c).isNone ∧ entries ≠ [] ∧ nows.length = entries.length
    · have hnows : nows ≠ [] := by
        intro hnil
        have hlen := hok.2.2
        rw [hnil] at hlen
        exact hok.2.1 (List.length_eq_zero_iff.mp hlen.symm)
      have hfresh : w.calls c = none := Option.isNone_iff_eq_none.mp hok.1
      simp only [Emits.step, if_pos hok, mintSeqAndTs_start]
      refine h.mint hnows ?_ ?_ (fun t r hr => .inl hr)
      · intro c' e he
        by_cases hc : c' = c
        · rw [hc, Function.update_self] at he
          cases he
          exact .inr ⟨by rw [hc]; exact hfresh, rfl, rfl, rfl⟩
        · rw [Function.update_of_ne hc] at he
          exact .inl he
      · intro c₁ c₂ e₁ e₂ h₁ h₂ hn₁ hn₂
        have hself : ∀ {v : Option Emit} {c' : ℕ} {e' : Emit}, Function.update w.calls c v c' = some e' →
            w.calls c' = none → c' = c := by
          intro v c' e' he' hn
          by_contra hc
          rw [Function.update_of_ne hc, hn] at he'
          cases he'
        rw [hself h₁ hn₁, hself h₂ hn₂]
    · simp only [Emits.step, if_neg hok]
      exact h
  | ensure c =>
    cases he : w.calls c with
    | none =>
      simp only [Emits.step, he]
      exact h
    | some e =>
      by_cases hplan : e.plan = none
      · simp only [Emits.step, he, if_pos hplan]
        obtain ⟨-, hkept, hout⟩ := h.calls c e he
        have hopen : e.returned = none := by
          by_contra hr
          exact hkept.planned hr hplan
        refine h.proceed he rfl rfl rfl rfl ⟨hkept.sound, ?_, ?_⟩ ?_ id
        · intro hr
          exact absurd (hopen.symm.trans hr) (by simp)
        · intro hr
          exact absurd (hopen.symm.trans hr) (by simp)
        · intro k
          rw [if_neg]
          rintro ⟨hr, -⟩
          exact absurd (hopen.symm.trans hr) (by simp)
      · simp only [Emits.step, he, if_neg hplan]
        exact h
  | operate c =>
    cases he : w.calls c with
    | none =>
      simp only [Emits.step, he]
      exact h
    | some e =>
      obtain ⟨-, hkept, -⟩ := h.calls c e he
      cases hplan : e.plan with
      | none =>
        simp only [Emits.step, he, hplan]
        exact h
      | some plan =>
        by_cases hok : e.returned = none ∧ e.done < plan.length
        · cases hfault : faults c e.done with
          | true =>
            simp only [Emits.step, he, hplan, if_pos hok, hfault, if_true]
            refine h.proceed he rfl rfl rfl rfl ⟨hkept.sound, ?_, ?_⟩ ?_ ?_
            · exact fun hr => nomatch hr
            · exact fun _ => ⟨plan, rfl, hok.2, hfault⟩
            · exact fun k => (if_neg fun hand => nomatch hand.1).symm
            · exact fun hr => absurd (hok.1.symm.trans hr) (by simp)
          | false =>
            simp only [Emits.step, he, hplan, if_pos hok, hfault, Bool.false_eq_true, if_false]
            refine h.proceed he rfl rfl rfl rfl ⟨?_, ?_, ?_⟩ ?_ id
            · intro k hk
              dsimp only at hk
              rcases Nat.lt_succ_iff_lt_or_eq.mp hk with hlt | rfl
              · exact hkept.sound k hlt
              · exact hfault
            · exact fun hr => absurd (hok.1.symm.trans hr) (by simp)
            · exact fun hr => absurd (hok.1.symm.trans hr) (by simp)
            · exact fun k => (if_neg fun hand => absurd (hok.1.symm.trans hand.1) (by simp)).symm
        · simp only [Emits.step, he, hplan, if_neg hok]
          exact h
  | settle c =>
    cases he : w.calls c with
    | none =>
      simp only [Emits.step, he]
      exact h
    | some e =>
      obtain ⟨-, hkept, -⟩ := h.calls c e he
      by_cases hok : e.returned = none ∧ e.plan.map List.length = some e.done
      · simp only [Emits.step, he, if_pos hok]
        refine h.proceed he rfl rfl rfl rfl ⟨hkept.sound, fun _ => hok.2, fun hr => nomatch hr⟩ ?_ (fun _ => rfl)
        intro k
        dsimp only
        rw [SortedMap.get_erase]
        by_cases hk : e.start = k
        · simp [hk]
        · rw [if_neg hk, if_neg fun hand => hk hand.2.symm]
      · simp only [Emits.step, he, if_neg hok]
        exact h
  | park t nows =>
    by_cases hnows : nows ≠ []
    · simp only [Emits.step, if_pos hnows, mintSeqAndTs_start]
      refine h.mint hnows (fun c e he => .inl he) ?_ ?_
      · intro c c' e e' he _ hnone
        rw [hnone] at he
        cases he
      · intro u r hr
        by_cases hu : u = t
        · rw [hu, Function.update_self, List.mem_append, List.mem_singleton] at hr
          rw [hu]
          exact hr.imp_right fun hr => ⟨by rw [hr], rfl⟩
        · rw [Function.update_of_ne hu] at hr
          exact .inl hr
    · simp only [Emits.step, if_neg hnows]
      exact h
  | resolve t =>
    obtain ⟨hnext, -⟩ := deregisterInFlight_frame (w.parked t) w.st
    have hget := deregisterInFlight_get (w.parked t) w.st
    refine ⟨?_, ?_, h.apart, ?_⟩
    · intro k r hk
      simp only [Emits.step] at hk ⊢
      rw [hget] at hk
      rw [hnext]
      split at hk
      · cases hk
      · exact h.keys k r hk
    · intro c e he
      obtain ⟨h1, h2, h3⟩ := h.calls c e he
      have hnot : e.start ∉ (w.parked t).map Prod.fst := by
        intro hmem
        obtain ⟨r, hr, heq⟩ := List.mem_map.mp hmem
        exact (h.parked t r hr).2 c e he heq.symm
      simp only [Emits.step]
      rw [hget, if_neg hnot, hnext]
      exact ⟨h1, h2, h3⟩
    · intro u r hr
      simp only [Emits.step] at hr ⊢
      rw [hnext]
      by_cases hu : u = t
      · rw [hu, Function.update_self] at hr
        cases hr
      · rw [Function.update_of_ne hu] at hr
        exact h.parked u r hr
  | prepare now =>
    refine h.congr ?_ ?_ rfl rfl
    · simp only [Emits.step, mintSeqAndTs_nextSeq]
      omega
    · simp only [Emits.step]
      rw [mintSeqAndTs_inFlight]
      rfl
  | reserve now =>
    refine h.congr ?_ ?_ rfl rfl
    · simp [Emits.step, reserveStamp]
    · simp [Emits.step, reserveStamp]
  | release ts => exact h.congr le_rfl rfl rfl rfl

/-! ## Runs -/

theorem Emits.Inv.run {w : Emits} (h : w.Inv faults) (events : List EmitEvent) :
    (w.run shards faults events).Inv faults :=
  Library.run_invariant (Emits.step shards faults) (fun _ ev hw => hw.step ev) events w h

theorem Emits.Inv.returned_step {w : Emits} (h : w.Inv faults) {c : ℕ} {e : Emit} (he : w.calls c = some e)
    (hr : e.returned ≠ none) (ev : EmitEvent) : (w.step shards faults ev).calls c = some e := by
  have hother : ∀ {c' : ℕ} {v : Option Emit}, c' ≠ c → Function.update w.calls c' v c = some e := by
    intro c' v hc
    rw [Function.update_of_ne hc.symm, he]
  cases ev with
  | emit c' entries nows =>
    by_cases hok : (w.calls c').isNone ∧ entries ≠ [] ∧ nows.length = entries.length
    · have hc : c' ≠ c := by
        rintro rfl
        rw [he] at hok
        exact Bool.false_ne_true hok.1
      simp only [Emits.step, if_pos hok]
      exact hother hc
    · simp only [Emits.step, if_neg hok]
      exact he
  | ensure c' =>
    by_cases hc : c' = c
    · subst hc
      simp only [Emits.step, he, if_neg ((h.calls c' e he).2.1.planned hr)]
    · simp only [Emits.step]
      split
      · split
        · exact hother hc
        · exact he
      · exact he
  | operate c' =>
    by_cases hc : c' = c
    · subst hc
      simp only [Emits.step, he]
      split
      · rw [if_neg fun hand => hr hand.1]
        exact he
      · exact he
    · simp only [Emits.step]
      split
      · split
        · split
          · split
            · exact hother hc
            · exact hother hc
          · exact he
        · exact he
      · exact he
  | settle c' =>
    by_cases hc : c' = c
    · subst hc
      simp only [Emits.step, he]
      rw [if_neg fun hand => hr hand.1]
      exact he
    · simp only [Emits.step]
      split
      · split
        · exact hother hc
        · exact he
      · exact he
  | park t nows =>
    simp only [Emits.step]
    split
    · exact he
    · exact he
  | resolve t => exact he
  | prepare now => exact he
  | reserve now => exact he
  | release ts => exact he

theorem Emits.Inv.returned_run {w : Emits} (h : w.Inv faults) {c : ℕ} {e : Emit} (he : w.calls c = some e)
    (hr : e.returned ≠ none) (events : List EmitEvent) : (w.run shards faults events).calls c = some e := by
  induction events generalizing w with
  | nil => exact he
  | cons ev events ih => exact ih (h.step ev) (h.returned_step he hr ev)

/-- An emit that has returned an error is still in the window, and the visible tail is below it. -/
theorem Emits.Inv.tail_lt {w : Emits} (h : w.Inv faults) {c : ℕ} {e : Emit} (he : w.calls c = some e)
    (hr : e.returned = some false) : visibleTail w.st < e.start := by
  have hout := (h.calls c e he).2.2
  cases hget : w.st.inFlight.get e.start with
  | none =>
    have htrue := hout.mp hget
    rw [hr] at htrue
    cases htrue
  | some r => exact ((le_visibleTail_iff w.st h.keys _).mp le_rfl).2 e.start r hget

/-- In every run, an emit that has returned has left the in-flight window if and only if none of its operations
    failed; after one that has failed, the visible tail stays below its range for good. -/
theorem bare_emit_left_iff (shards : Option ℤ) (faults : ℕ → ℕ → Bool) (nextSeq secs ord : ℤ)
    (created : String → Bool) (events : List EmitEvent) (c : ℕ) (e : Emit)
    (he : ((Emits.opened nextSeq secs ord created).run shards faults events).calls c = some e)
    (hr : e.returned ≠ none) :
    ∃ plan, e.plan = some plan ∧
      (((Emits.opened nextSeq secs ord created).run shards faults events).Left e ↔
        ∀ k < plan.length, faults c k = false) ∧
      ((∃ k < plan.length, faults c k = true) → ∀ later,
        visibleTail ((Emits.opened nextSeq secs ord created).run shards faults (events ++ later)).st < e.start) := by
  have hinv : ((Emits.opened nextSeq secs ord created).run shards faults events).Inv faults :=
    (Emits.inv_opened faults nextSeq secs ord created).run events
  obtain ⟨-, hkept, hout⟩ := hinv.calls c e he
  obtain ⟨plan, hplan⟩ := Option.ne_none_iff_exists'.mp (hkept.planned hr)
  -- the call returned `Ok` just when every operation was done
  have hsound : e.returned = some true ↔ ∀ k < plan.length, faults c k = false := by
    constructor
    · intro htrue k hk
      have hend := hkept.ended htrue
      rw [hplan, Option.map_some, Option.some.injEq] at hend
      exact hkept.sound k (hend ▸ hk)
    · intro hall
      cases hreturned : e.returned with
      | none => exact absurd hreturned hr
      | some ok =>
        cases ok with
        | true => rfl
        | false =>
          obtain ⟨plan', hplan', hlt, hfault⟩ := hkept.failed hreturned
          rw [hplan] at hplan'
          cases hplan'
          rw [hall _ hlt] at hfault
          cases hfault
  refine ⟨plan, hplan, hout.trans hsound, ?_⟩
  rintro ⟨k, hk, hfault⟩ later
  have hfalse : e.returned = some false := by
    cases hreturned : e.returned with
    | none => exact absurd hreturned hr
    | some ok =>
      cases ok with
      | true =>
        rw [hsound.mp hreturned k hk] at hfault
        cases hfault
      | false => rfl
  have hrun : (Emits.opened nextSeq secs ord created).run shards faults (events ++ later) =
      ((Emits.opened nextSeq secs ord created).run shards faults events).run shards faults later := List.foldl_append
  rw [hrun]
  exact (hinv.run later).tail_lt (hinv.returned_run he hr later) hfalse

/-- A one-row emit that writes its row leaves the window. -/
theorem bare_emit_left_one :
    ∃ e, ((Emits.opened 1 0 0 fun _ => true).run none (fun _ _ => false)
        [.emit 0 [(.raw [], none)] [7], .ensure 0, .operate 0, .operate 0, .operate 0, .settle 0]).calls 0 = some e ∧
      ((Emits.opened 1 0 0 fun _ => true).run none (fun _ _ => false)
        [.emit 0 [(.raw [], none)] [7], .ensure 0, .operate 0, .operate 0, .operate 0, .settle 0]).Left e := by
  obtain ⟨plan, -, hiff, -⟩ := bare_emit_left_iff none (fun _ _ => false) 1 0 0 (fun _ => true)
    [.emit 0 [(.raw [], none)] [7], .ensure 0, .operate 0, .operate 0, .operate 0, .settle 0] 0
    ⟨1, 2, [(.raw [], none)], some [.openCursor "table:secantus_oplog_sh1", .reset "table:secantus_oplog_sh1",
      .insert "table:secantus_oplog_sh1" 1], 3, some true⟩ rfl (by simp)
  exact ⟨_, rfl, hiff.mpr fun _ _ => rfl⟩

/-- An emit whose shard's cursor does not open returns an error, and its range stays in the window. -/
theorem bare_emit_stays :
    ∃ e, ((Emits.opened 1 0 0 fun _ => true).run none (fun _ _ => true)
        [.emit 0 [(.raw [], none)] [7], .ensure 0, .operate 0]).calls 0 = some e ∧ e.returned = some false ∧
      ¬((Emits.opened 1 0 0 fun _ => true).run none (fun _ _ => true)
        [.emit 0 [(.raw [], none)] [7], .ensure 0, .operate 0]).Left e := by
  refine ⟨_, rfl, rfl, ?_⟩
  intro hleft
  have hstays : ((Emits.opened 1 0 0 fun _ => true).run none (fun _ _ => true)
      [.emit 0 [(.raw [], none)] [7], .ensure 0, .operate 0]).st.inFlight.get 1 = some ⟨2, tsU64 ⟨7, 1⟩⟩ := rfl
  unfold Emits.Left at hleft
  exact absurd (hstays.symm.trans hleft) (by simp)

end Secantus.Oplog
