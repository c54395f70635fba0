/-
  The transactions that committed, against what the SSI state still holds of them.

  `Ledger` is the invariant: the finished transactions stand with the marks they ended with, and while a
  writer runs nothing that commits after its registration can be cleared as older than every writer.
-/
import Secantus.Ssi.Cluster
import Secantus.Ssi.Effects

namespace Secantus.Ssi

open Secantus Secantus.Library

/-- A mark without its xid. -/
def Mark.anonymous (m : Mark) : Mark := { m with topXid := none }

namespace State

/-- How many read/write transactions run. -/
def writers (s : State) : ℕ := s.byPid.entries.countP fun e => !(s.sx e.2).mark.readOnly

/-- The state holds the transaction that committed as `c`. -/
def Holds (s : State) (c : Commit) : Prop :=
  ∃ f ∈ s.finishedList, s.Live f ∧ (s.sx f).commitSeq = c.seq

/-- The state against the transactions that committed, in sessions that registered at `registeredAt`. -/
structure Ledger (s : State) (commits : List Commit) (registeredAt : ℤ → ℕ) : Prop where
  tracked : s.Tracked
  active : ∀ pid i, s.mine pid = some i → i ∈ s.active
  isOpen : ∀ pid i, s.mine pid = some i → (s.sx i).mark.Open
  beforeLe : ∀ pid i, s.mine pid = some i → (s.sx i).mark.lastCommitBeforeSnapshot ≤ s.lastCommitSeq
  seqLe : ∀ c ∈ commits, c.seq ≤ s.lastCommitSeq
  finishedLe : ∀ f ∈ s.finishedList, (s.sx f).mark.commitSeq ≤ s.lastCommitSeq
  recorded : ∀ f ∈ s.finishedList, ∀ c ∈ commits, (s.sx f).mark.commitSeq = c.seq →
    (s.sx f).mark.finishedBefore = c.finishedBefore ∧ (s.sx f).mark.readOnly = !c.wrote
  registered : ∀ c ∈ commits, ∀ pid i, s.mine pid = some i → registeredAt pid < c.time →
    (s.sx i).mark.lastCommitBeforeSnapshot < c.seq
  clearLe : s.canPartialClearThrough ≤ s.lastCommitSeq
  writerLe : ∀ pid i, s.mine pid = some i → (s.sx i).mark.readOnly = false →
    s.canPartialClearThrough ≤ (s.sx i).mark.lastCommitBeforeSnapshot
  counted : s.writableCount = s.writers

theorem ledger_initial (registeredAt : ℤ → ℕ) : Ledger initial [] registeredAt where
  tracked := tracked_initial
  active pid i h := by cases h
  isOpen pid i h := by cases h
  beforeLe pid i h := by cases h
  seqLe c h := by cases h
  finishedLe f h := by cases h
  recorded f h := by cases h
  registered c h := by cases h
  clearLe := Nat.zero_le _
  writerLe pid i h := by cases h
  counted := rfl

/-! ## Steps that keep the marks -/

/-- Everyone's mark is kept, but perhaps for an xid: the ledger stands. -/
theorem Ledger.ofAnonymous {s s' : State} {commits : List Commit} {registeredAt : ℤ → ℕ}
    (h : Ledger s commits registeredAt) (ht : s'.Tracked)
    (hmark : ∀ i, s.Live i → (s'.sx i).mark.anonymous = (s.sx i).mark.anonymous)
    (hactive : ∀ i, s.Live i → (i ∈ s'.active ↔ i ∈ s.active)) (hpids : s'.byPid = s.byPid)
    (hlist : s'.finishedList = s.finishedList) (hcount : s'.writableCount = s.writableCount)
    (hcan : s'.canPartialClearThrough = s.canPartialClearThrough)
    (hseq : s'.lastCommitSeq = s.lastCommitSeq) : Ledger s' commits registeredAt := by
  have hlive := h.tracked.live
  have hfin := h.tracked.finishedLive
  have hmine : ∀ pid, s'.mine pid = s.mine pid := fun pid => by rw [mine, hpids, mine]
  refine ⟨ht, fun pid i hi => ?_, fun pid i hi => ?_, fun pid i hi => ?_, fun c hc => ?_, fun f hf => ?_,
    fun f hf c hc => ?_, fun c hc pid i hi => ?_, ?_, fun pid i hi => ?_, ?_⟩
  · rw [hmine] at hi
    exact (hactive i (hlive pid i hi)).mpr (h.active pid i hi)
  · rw [hmine] at hi
    show (s'.sx i).mark.anonymous.Open
    rw [hmark i (hlive pid i hi)]
    exact h.isOpen pid i hi
  · rw [hmine] at hi
    show (s'.sx i).mark.anonymous.lastCommitBeforeSnapshot ≤ _
    rw [hmark i (hlive pid i hi), hseq]
    exact h.beforeLe pid i hi
  · rw [hseq]
    exact h.seqLe c hc
  · rw [hlist] at hf
    show (s'.sx f).mark.anonymous.commitSeq ≤ _
    rw [hmark f (hfin f hf), hseq]
    exact h.finishedLe f hf
  · rw [hlist] at hf
    show (s'.sx f).mark.anonymous.commitSeq = c.seq →
      (s'.sx f).mark.anonymous.finishedBefore = c.finishedBefore ∧
        (s'.sx f).mark.anonymous.readOnly = !c.wrote
    rw [hmark f (hfin f hf)]
    exact h.recorded f hf c hc
  · rw [hmine] at hi
    show _ → (s'.sx i).mark.anonymous.lastCommitBeforeSnapshot < c.seq
    rw [hmark i (hlive pid i hi)]
    exact h.registered c hc pid i hi
  · rw [hcan, hseq]
    exact h.clearLe
  · rw [hmine] at hi
    show (s'.sx i).mark.anonymous.readOnly = false →
      _ ≤ (s'.sx i).mark.anonymous.lastCommitBeforeSnapshot
    rw [hmark i (hlive pid i hi), hcan]
    exact h.writerLe pid i hi
  · rw [hcount, h.counted]
    unfold writers
    rw [hpids]
    refine List.countP_congr fun e he => ?_
    have hi := hlive e.1 e.2 ((s.byPid.get_eq_some_iff e.1 e.2).mpr he)
    show (!(s.sx e.2).mark.anonymous.readOnly) = true ↔ (!(s'.sx e.2).mark.anonymous.readOnly) = true
    rw [hmark e.2 hi]

theorem Ledger.ofSteady {s s' : State} {commits : List Commit} {registeredAt : ℤ → ℕ}
    (h : Ledger s commits registeredAt) (hs : Steady s.Live s s') (ht : s'.Tracked) :
    Ledger s' commits registeredAt :=
  h.ofAnonymous ht (fun i hi => congrArg Mark.anonymous (hs.mark i hi)) hs.active hs.byPid
    hs.finishedList hs.writableCount hs.canPartialClearThrough hs.lastCommitSeq

theorem Ledger.number {s : State} {commits : List Commit} {registeredAt : ℤ → ℕ}
    (h : Ledger s commits registeredAt) {seq : ℕ} (hle : s.lastCommitSeq ≤ seq)
    (ht : State.Tracked { s with lastCommitSeq := seq }) :
    Ledger { s with lastCommitSeq := seq } commits registeredAt :=
  { h with
    tracked := ht
    beforeLe := fun pid i hi => (h.beforeLe pid i hi).trans hle
    seqLe := fun c hc => (h.seqLe c hc).trans hle
    finishedLe := fun f hf => (h.finishedLe f hf).trans hle
    clearLe := h.clearLe.trans hle }

/-- Later registrations ask for less. -/
theorem Ledger.mono {s : State} {commits : List Commit} {registeredAt registeredAt' : ℤ → ℕ}
    (h : Ledger s commits registeredAt)
    (hle : ∀ c ∈ commits, ∀ pid, registeredAt' pid < c.time → registeredAt pid < c.time) :
    Ledger s commits registeredAt' :=
  { h with registered := fun c hc pid i hi hlt => h.registered c hc pid i hi (hle c hc pid hlt) }

theorem Steady.holds {P : ℕ → Prop} {s s' : State} (hs : Steady P s s') (hP : ∀ f ∈ s.finishedList, P f)
    {c : Commit} : s'.Holds c ↔ s.Holds c := by
  unfold Holds
  rw [hs.finishedList]
  refine exists_congr fun f => and_congr_right fun hf => and_congr (hs.live f (hP f hf)) ?_
  exact Eq.congr_left (congrArg Mark.commitSeq (hs.mark f (hP f hf)))

/-! ## The end of a transaction -/

section Release

variable {s : State} {commits : List Commit} {registeredAt : ℤ → ℕ} {pid : ℤ} {me : ℕ}
  {isCommit : Bool} {nextXid : ℕ} {s' : State}

/-- Who still runs was running, and is neither `me` nor finished. -/
theorem EndOf.mine (hend : EndOf pid me isCommit nextXid s s') (ht : s.Tracked) (hme : s.mine pid = some me)
    {pid' : ℤ} {i : ℕ} (hi : s'.mine pid' = some i) :
    s.mine pid' = some i ∧ i ≠ me ∧ i ∉ s.finishedList := by
  rw [State.mine, hend.byPid, SortedMap.get_erase] at hi
  by_cases heq : pid = pid'
  · rw [if_pos heq] at hi
    cases hi
  · rw [if_neg heq] at hi
    refine ⟨hi, ?_, ht.unfinished pid' i hi⟩
    rintro rfl
    exact heq (ht.inj pid pid' i hme hi)

theorem EndOf.writers (hend : EndOf pid me isCommit nextXid s s') (ht : s.Tracked)
    (hme : s.mine pid = some me) :
    s.writers = s'.writers + if (s.sx me).mark.readOnly then 0 else 1 := by
  have hperm := SortedMap.perm_erase hme
  have hothers : ∀ e ∈ (s.byPid.erase pid).entries, (s'.sx e.2).mark = (s.sx e.2).mark := by
    intro e he
    have hi : s'.mine e.1 = some e.2 := by
      rw [State.mine, hend.byPid]
      exact (SortedMap.get_eq_some_iff _ e.1 e.2).mpr he
    obtain ⟨-, hne, hfin⟩ := hend.mine ht hme hi
    exact hend.mark e.2 hne hfin
  unfold State.writers
  rw [hperm.countP_eq, List.countP_cons, hend.byPid]
  congr 1
  · refine List.countP_congr fun e he => ?_
    rw [hothers e he]
  · cases (s.sx me).mark.readOnly with
    | true => rfl
    | false => rfl

/-- While a writer is left, nothing new can be cleared as older than every writer. -/
theorem EndOf.writerLe (hend : EndOf pid me isCommit nextXid s s') (h : Ledger s commits registeredAt)
    (hme : s.mine pid = some me) {pid' : ℤ} {i : ℕ} (hi : s'.mine pid' = some i)
    (hwriter : (s.sx i).mark.readOnly = false) :
    s'.canPartialClearThrough ≤ (s.sx i).mark.lastCommitBeforeSnapshot := by
  obtain ⟨hi', hne, hfin⟩ := hend.mine h.tracked hme hi
  have hleft : 0 < s'.writers := by
    unfold State.writers
    rw [List.countP_pos_iff]
    refine ⟨(pid', i), (s'.byPid.get_eq_some_iff pid' i).mp hi, ?_⟩
    rw [hend.mark i hne hfin, hwriter]
    rfl
  have hcount := hend.writers h.tracked hme
  rw [← h.counted] at hcount
  rw [hend.canPartialClearThrough, if_neg]
  · exact h.writerLe pid' i hi' hwriter
  · rintro ⟨hro, hzero⟩
    have hro : (s.sx me).mark.readOnly = false := hro
    rw [hro] at hcount
    simp only [Bool.false_eq_true, if_false] at hcount
    omega

/-- The record of what commits agrees with the mark it ends with. -/
theorem markAfter_commit (s : State) (me nextXid time : ℕ) :
    (s.markAfter me true nextXid me).commitSeq = (s.commitOf me nextXid time).seq ∧
      (s.markAfter me true nextXid me).finishedBefore = (s.commitOf me nextXid time).finishedBefore ∧
      (s.markAfter me true nextXid me).readOnly = !(s.commitOf me nextXid time).wrote := by
  unfold markAfter
  rw [if_pos rfl]
  refine ⟨rfl, rfl, ?_⟩
  show ((s.sx me).flags.readOnly || !(s.sx me).didWrite) =
    !(!(s.sx me).flags.readOnly && (s.sx me).didWrite)
  cases (s.sx me).flags.readOnly <;> cases (s.sx me).didWrite <;> rfl

/-- The commits after `me` has ended. -/
def commitsAfter (s : State) (commits : List Commit) (me : ℕ) (isCommit : Bool) (nextXid time : ℕ) :
    List Commit :=
  commits ++ if isCommit then [s.commitOf me nextXid time] else []

theorem Ledger.release (h : Ledger s commits registeredAt) (hme : s.mine pid = some me)
    (hend : EndOf pid me isCommit nextXid s s') (ht : s'.Tracked) (time : ℕ) :
    Ledger s' (s.commitsAfter commits me isCommit nextXid time) registeredAt := by
  have hseq : s.lastCommitSeq ≤ s'.lastCommitSeq ∧
      (isCommit = true → s'.lastCommitSeq = s.lastCommitSeq + 1) := by
    rw [hend.lastCommitSeq]
    cases isCommit with
    | true => exact ⟨Nat.le_succ _, fun _ => rfl⟩
    | false => exact ⟨le_refl _, fun hc => by cases hc⟩
  have hcommit : ∀ c ∈ s.commitsAfter commits me isCommit nextXid time,
      c ∈ commits ∨ (isCommit = true ∧ c = s.commitOf me nextXid time) := by
    intro c hc
    unfold commitsAfter at hc
    rcases List.mem_append.mp hc with hc | hc
    · exact Or.inl hc
    · cases isCommit with
      | true => exact Or.inr ⟨rfl, List.mem_singleton.mp hc⟩
      | false => cases hc
  have hunfinished := h.tracked.unfinished pid me hme
  -- a finished transaction's mark: as it was, or the one `me` ends with
  have hfinished : ∀ f ∈ s'.finishedList,
      (f ∈ s.finishedList ∧ (s'.sx f).mark = (s.sx f).mark) ∨
        (f = me ∧ isCommit = true ∧ (s'.sx f).mark = s.markAfter me true nextXid me) := by
    intro f hf
    obtain ⟨hwhere, hmark⟩ := hend.finished f hf
    rcases hwhere with hf | ⟨rfl, hc⟩
    · refine Or.inl ⟨hf, ?_⟩
      rw [hmark, markAfter, if_neg]
      rintro rfl
      exact hunfinished hf
    · exact Or.inr ⟨rfl, hc, hc ▸ hmark⟩
  obtain ⟨hmseq, hmbefore, hmro⟩ := s.markAfter_commit me nextXid time
  have hmark : ∀ {pid' : ℤ} {i : ℕ}, s'.mine pid' = some i → (s'.sx i).mark = (s.sx i).mark := by
    intro pid' i hi
    obtain ⟨-, hne, hfin⟩ := hend.mine h.tracked hme hi
    exact hend.mark i hne hfin
  refine ⟨ht, fun pid' i hi => ?_, fun pid' i hi => ?_, fun pid' i hi => ?_, fun c hc => ?_, fun f hf => ?_,
    fun f hf c hc heq => ?_, fun c hc pid' i hi hreg => ?_, ?_, fun pid' i hi hwriter => ?_, ?_⟩
  · obtain ⟨hi', hne, hfin⟩ := hend.mine h.tracked hme hi
    exact (hend.active i hne hfin).mpr (h.active pid' i hi')
  · rw [hmark hi]
    exact h.isOpen pid' i (hend.mine h.tracked hme hi).1
  · rw [hmark hi]
    exact (h.beforeLe pid' i (hend.mine h.tracked hme hi).1).trans hseq.1
  · rcases hcommit c hc with hc | ⟨hdone, rfl⟩
    · exact (h.seqLe c hc).trans hseq.1
    · exact (hseq.2 hdone).ge
  · rcases hfinished f hf with ⟨hf, hm⟩ | ⟨rfl, hc, hm⟩
    · rw [hm]
      exact (h.finishedLe f hf).trans hseq.1
    · rw [hm, hmseq]
      exact (hseq.2 hc).ge
  · rcases hfinished f hf with ⟨hf, hm⟩ | ⟨rfl, -, hm⟩
    · rw [hm] at heq ⊢
      rcases hcommit c hc with hc | ⟨-, rfl⟩
      · exact h.recorded f hf c hc heq
      · have hle := h.finishedLe f hf
        rw [heq] at hle
        exact absurd hle (Nat.not_succ_le_self _)
    · rw [hm] at heq ⊢
      rcases hcommit c hc with hc | ⟨-, rfl⟩
      · have hle := h.seqLe c hc
        rw [← heq, hmseq] at hle
        exact absurd hle (Nat.not_succ_le_self _)
      · exact ⟨hmbefore, hmro⟩
  · rw [hmark hi]
    have hi' := (hend.mine h.tracked hme hi).1
    rcases hcommit c hc with hc | ⟨-, rfl⟩
    · exact h.registered c hc pid' i hi' hreg
    · exact Nat.lt_succ_of_le (h.beforeLe pid' i hi')
  · rw [hend.canPartialClearThrough]
    split
    · exact le_refl _
    · exact h.clearLe.trans hseq.1
  · rw [hmark hi] at hwriter ⊢
    exact hend.writerLe h hme hi hwriter
  · have hcount := hend.writers h.tracked hme
    rw [← h.counted] at hcount
    rw [hend.writableCount]
    have hro : (s.sx me).flags.readOnly = (s.sx me).mark.readOnly := rfl
    rw [hro]
    split
    · rename_i htrue
      rw [if_pos htrue] at hcount
      exact hcount
    · rename_i hfalse
      rw [if_neg hfalse] at hcount
      omega

/-- What the end of a transaction makes the state forget is below every xmin that runs, or was read-only
    and ended before every writer that runs registered. -/
theorem EndOf.forgets (hend : EndOf pid me isCommit nextXid s s') (h : Ledger s commits registeredAt)
    (hme : s.mine pid = some me) (ht : s'.Tracked) {time : ℕ} {c : Commit}
    (hc : c ∈ s.commitsAfter commits me isCommit nextXid time) (hheld : c ∈ commits → s.Holds c)
    (hgone : ¬ s'.Holds c) {pid' : ℤ} {i : ℕ} (hi : s'.mine pid' = some i) :
    c.finishedBefore ≤ (s.sx i).snap.xmin ∨
      (c.wrote = false ∧ ((s.sx i).mark.readOnly = true ∨ c.seq ≤ (s.sx i).mark.lastCommitBeforeSnapshot)) := by
  obtain ⟨hi', hne, hfin⟩ := hend.mine h.tracked hme hi
  have hunfinished := h.tracked.unfinished pid me hme
  -- the slot the transaction was in, and its mark there
  have hslot : ∃ f, (f ∈ s.finishedList ∨ (f = me ∧ isCommit = true)) ∧
      (s.markAfter me isCommit nextXid f).commitSeq = c.seq ∧
      (s.markAfter me isCommit nextXid f).finishedBefore = c.finishedBefore ∧
      (s.markAfter me isCommit nextXid f).readOnly = !c.wrote := by
    unfold commitsAfter at hc
    rcases List.mem_append.mp hc with hc | hc
    · obtain ⟨f, hf, -, hseq⟩ := hheld hc
      have hmark : s.markAfter me isCommit nextXid f = (s.sx f).mark := by
        rw [markAfter, if_neg]
        rintro rfl
        exact hunfinished hf
      refine ⟨f, Or.inl hf, ?_⟩
      rw [hmark]
      exact ⟨hseq, h.recorded f hf c hc hseq⟩
    · cases isCommit with
      | true =>
        obtain rfl := List.mem_singleton.mp hc
        exact ⟨me, Or.inr ⟨rfl, rfl⟩, s.markAfter_commit me nextXid time⟩
      | false => cases hc
  obtain ⟨f, hf, hseq, hbefore, hro⟩ := hslot
  have hf' : f ∉ s'.finishedList := by
    intro hmem
    refine hgone ⟨f, hmem, ht.finishedLive f hmem, ?_⟩
    rw [← hseq, ← (hend.finished f hmem).2]
    rfl
  rcases hend.gone f hf hf' with hold | ⟨hreadOnly, hle⟩
  · refine Or.inl ?_
    rw [← hbefore]
    exact hold i (h.active pid' i hi') hne (h.isOpen pid' i hi')
  · refine Or.inr ⟨?_, ?_⟩
    · rw [hro] at hreadOnly
      simpa using hreadOnly
    · cases hwriter : (s.sx i).mark.readOnly with
      | true => exact Or.inl rfl
      | false =>
        rw [hseq] at hle
        exact Or.inr (hle.trans (hend.writerLe h hme hi hwriter))

end Release

/-! ## A registration -/

theorem Joined.mine {pid : ℤ} {id : ℕ} {snap : Snap} {readOnly : Bool} {s s' : State}
    (hj : Joined pid id snap readOnly s s') {pid' : ℤ} {i : ℕ} (hi : s'.mine pid' = some i) :
    (pid' = pid ∧ i = id) ∨ (pid' ≠ pid ∧ s.mine pid' = some i) := by
  rw [State.mine, hj.byPid, SortedMap.get_insert] at hi
  by_cases heq : pid = pid'
  · rw [if_pos heq] at hi
    exact Or.inl ⟨heq.symm, (Option.some.inj hi).symm⟩
  · rw [if_neg heq] at hi
    exact Or.inr ⟨Ne.symm heq, hi⟩

theorem Joined.writers {pid : ℤ} {id : ℕ} {snap : Snap} {readOnly : Bool} {s s' : State}
    (hj : Joined pid id snap readOnly s s') (ht : s.Tracked) (hnone : s.mine pid = none) :
    s'.writers = s.writers + if readOnly then 0 else 1 := by
  have hperm := SortedMap.perm_insert hnone id
  unfold State.writers
  rw [hj.byPid, hperm.countP_eq, List.countP_cons]
  congr 1
  · refine List.countP_congr fun e he => ?_
    have hlive := ht.live e.1 e.2 ((s.byPid.get_eq_some_iff e.1 e.2).mpr he)
    rw [hj.mark, if_neg]
    intro heq
    exact hj.free (heq ▸ hlive)
  · rw [hj.mark, if_pos rfl]
    cases readOnly with
    | true => rfl
    | false => rfl

theorem Ledger.join {s s' : State} {commits : List Commit} {registeredAt : ℤ → ℕ}
    (h : Ledger s commits registeredAt) {pid : ℤ} {id : ℕ} {snap : Snap} {readOnly : Bool}
    (hnone : s.mine pid = none) (hj : Joined pid id snap readOnly s s') (ht : s'.Tracked)
    {registeredAt' : ℤ → ℕ} (hother : ∀ pid', pid' ≠ pid → registeredAt' pid' = registeredAt pid')
    (hnew : ∀ c ∈ commits, c.time ≤ registeredAt' pid) : Ledger s' commits registeredAt' := by
  have hold : ∀ i, s.Live i → (s'.sx i).mark = (s.sx i).mark := by
    intro i hi
    rw [hj.mark, if_neg]
    rintro rfl
    exact hj.free hi
  have hfresh : (s'.sx id).mark = s.freshMark snap readOnly := by
    rw [hj.mark, if_pos rfl]
  have hfin := h.tracked.finishedLive
  refine ⟨ht, fun pid' i hi => ?_, fun pid' i hi => ?_, fun pid' i hi => ?_, fun c hc => ?_, fun f hf => ?_,
    fun f hf c hc => ?_, fun c hc pid' i hi hreg => ?_, ?_, fun pid' i hi hwriter => ?_, ?_⟩
  · rw [hj.active]
    exact (hj.mine hi).imp And.right fun hi => h.active pid' i hi.2
  · rcases hj.mine hi with ⟨-, rfl⟩ | ⟨-, hi⟩
    · rw [hfresh]
      exact ⟨rfl, rfl⟩
    · rw [hold i (h.tracked.live pid' i hi)]
      exact h.isOpen pid' i hi
  · rw [hj.lastCommitSeq]
    rcases hj.mine hi with ⟨-, rfl⟩ | ⟨-, hi⟩
    · rw [hfresh]
      exact le_refl _
    · rw [hold i (h.tracked.live pid' i hi)]
      exact h.beforeLe pid' i hi
  · rw [hj.lastCommitSeq]
    exact h.seqLe c hc
  · rw [hj.finishedList] at hf
    rw [hold f (hfin f hf), hj.lastCommitSeq]
    exact h.finishedLe f hf
  · rw [hj.finishedList] at hf
    rw [hold f (hfin f hf)]
    exact h.recorded f hf c hc
  · rcases hj.mine hi with ⟨rfl, -⟩ | ⟨hne, hi⟩
    · exact absurd hreg (not_lt.mpr (hnew c hc))
    · rw [hold i (h.tracked.live pid' i hi)]
      rw [hother pid' hne] at hreg
      exact h.registered c hc pid' i hi hreg
  · rw [hj.canPartialClearThrough, hj.lastCommitSeq]
    exact h.clearLe
  · rw [hj.canPartialClearThrough]
    rcases hj.mine hi with ⟨-, rfl⟩ | ⟨-, hi⟩
    · rw [hfresh]
      exact h.clearLe
    · rw [hold i (h.tracked.live pid' i hi)] at hwriter ⊢
      exact h.writerLe pid' i hi hwriter
  · rw [hj.writers h.tracked hnone, hj.writableCount, h.counted]
    cases readOnly with
    | true => rfl
    | false => rfl

end State

end Secantus.Ssi
