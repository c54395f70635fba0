/-
  Readers of the synchronous oplog. A reader takes the visible tail and reads on from its position
  up to it, a page at a time. `readers_never_skip`: over every run, what is visible at or below a
  tail that was given is visible at every later time if it ever is, and a reader has received every
  visible row between its start and its position.
-/
import Secantus.Oplog.Window

namespace Secantus.Oplog

open Secantus

/-! ## A page of an ascending list -/

theorem takeWhile_le_eq_filter {l : List ℤ} (h : l.Pairwise (· < ·)) (b : ℤ) :
    l.takeWhile (· ≤ b) = l.filter (· ≤ b) := by
  induction l with
  | nil => rfl
  | cons a l ih =>
    obtain ⟨hlt, hl⟩ := List.pairwise_cons.mp h
    by_cases ha : a ≤ b
    · rw [List.takeWhile_cons_of_pos (by simpa using ha),
        List.filter_cons_of_pos (by simpa using ha), ih hl]
    · rw [List.takeWhile_cons_of_neg (by simpa using ha),
        List.filter_cons_of_neg (by simpa using ha)]
      refine (List.filter_eq_nil_iff.mpr fun x hx => ?_).symm
      have := hlt x hx
      simp only [decide_eq_true_eq]
      omega

theorem mem_page {l : List ℤ} (h : l.Pairwise (· < ·)) {pos tail q : ℤ} {limit : ℕ} (hq : q ∈ l)
    (hpos : pos ≤ q) (hlt : q < nextPos pos tail ((l.take limit).filter (· ≤ tail)) limit) :
    q ∈ (l.take limit).filter (· ≤ tail) := by
  have hsplit : q ∈ l.take limit ∨ q ∈ l.drop limit := by
    rw [← List.mem_append, List.take_append_drop]
    exact hq
  have hbefore : ∀ x ∈ l.take limit, ∀ y ∈ l.drop limit, x < y := by
    rw [← List.take_append_drop limit l] at h
    exact (List.pairwise_append.mp h).2.2
  unfold nextPos at hlt
  split at hlt
  · rename_i hshort
    have hqt : q ≤ tail := by omega
    rcases hsplit with hin | hout
    · exact List.mem_filter.mpr ⟨hin, by simpa using hqt⟩
    · -- a full page of rows below `q` would not have been short
      have hall : (l.take limit).filter (· ≤ tail) = l.take limit := by
        refine List.filter_eq_self.mpr fun x hx => ?_
        have := hbefore x hx q hout
        simp only [decide_eq_true_eq]
        omega
      have hlen := List.length_pos_of_mem hout
      rw [hall, List.length_take] at hshort
      rw [List.length_drop] at hlen
      omega
  · rename_i hfull
    have hall : (l.take limit).filter (· ≤ tail) = l.take limit :=
      List.filter_sublist.eq_of_length_le (by
        rw [List.length_take]
        omega)
    rw [hall] at hlt ⊢
    rcases hsplit with hin | hout
    · exact hin
    · cases hlast : (l.take limit).getLast? with
      | none =>
        rw [hlast, Option.getD_none] at hlt
        omega
      | some x =>
        have hx := hbefore x (List.mem_of_getLast? hlast) q hout
        rw [hlast, Option.getD_some] at hlt
        omega

/-- A reader stays where it is or goes on to a place no higher than after the tail. -/
theorem nextPos_cases {pos tail : ℤ} {kept : List ℤ} {limit : ℕ} (h : ∀ q ∈ kept, q ≤ tail) :
    nextPos pos tail kept limit = pos ∨ nextPos pos tail kept limit ≤ tail + 1 := by
  unfold nextPos
  split
  · omega
  · cases hlast : kept.getLast? with
    | none => simp
    | some x =>
      have := h x (List.mem_of_getLast? hlast)
      rw [Option.getD_some]
      omega

/-! ## What a read returns -/

theorem Window.visible_ascending {s : Sync} (h : Window s) :
    (s.visible.map (·.seq)).Pairwise (· < ·) :=
  List.pairwise_map.mpr (h.ascending.filter _)

/-- The rows a reader keeps of a read: a page of the visible rows from its position, cut at its
    tail. The bound of the read is no lower than the tail. -/
theorem readOplog_kept {s : Sync} (h : Window s) {pos tail bound : ℤ} (hbound : tail ≤ bound)
    (hstart : pos ≤ bound) (limit : ℕ) :
    ((readOplog s.visible pos limit bound).map (·.seq)).filter (· ≤ tail) =
      (((s.visible.map (·.seq)).filter (pos ≤ ·)).take limit).filter (· ≤ tail) := by
  have hpage : ((((s.visible.map (·.seq)).filter (pos ≤ ·)).take limit)).Pairwise (· < ·) :=
    (h.visible_ascending.filter _).sublist (List.take_sublist _ _)
  unfold readOplog
  rw [if_neg (not_lt.mpr hstart)]
  have hmap : (((s.visible.filter (pos ≤ ·.seq)).take limit).takeWhile (·.seq ≤ bound)).map (·.seq) =
      (((s.visible.map (·.seq)).filter (pos ≤ ·)).take limit).takeWhile (· ≤ bound) := by
    rw [List.filter_map, ← List.map_take, List.takeWhile_map]
    rfl
  rw [hmap, takeWhile_le_eq_filter hpage, List.filter_filter]
  refine List.filter_congr fun x _ => ?_
  simp only [Bool.and_eq_left_iff_imp, decide_eq_true_eq]
  omega

/-! ## Readers over a run -/

structure Reading (s : Sync) (r : Reader) : Prop where
  reached : r.pos = r.start ∨ r.pos ≤ visibleTail s.st + 1
  given : ∀ tail, r.tail = some tail → tail ≤ visibleTail s.st
  bounded : ∀ tail bound, r.tail = some tail → r.bound = some bound → tail ≤ bound
  complete : ∀ row ∈ s.visible, r.start ≤ row.seq → row.seq < r.pos → row.seq ∈ r.received

/-- An event of the transactions: what a reader has passed is not added to. -/
theorem Reading.step {s : Sync} {r : Reader} (h : Reading s r) (hw : Window s) (e : Event) :
    Reading (s.step e) r where
  reached := h.reached.imp_right fun hle => hle.trans
    (Int.add_le_add_right (hw.visibleTail_le_step e) 1)
  given := fun tail ht => (h.given tail ht).trans (hw.visibleTail_le_step e)
  bounded := h.bounded
  complete := by
    intro row hrow hstart hpos
    rcases h.reached with heq | hle
    · omega
    · exact h.complete row (hw.visible_step e hrow (by omega)) hstart hpos

theorem Reading.consume {s : Sync} {r : Reader} (h : Reading s r) (hw : Window s) {tail bound : ℤ}
    (ht : r.tail = some tail) (hb : r.bound = some bound) (limit : ℕ) :
    Reading s (r.consume tail (readOplog s.visible r.pos limit bound) limit) := by
  have htail := h.given tail ht
  have hbound := h.bounded tail bound ht hb
  set kept := ((readOplog s.visible r.pos limit bound).map (·.seq)).filter (· ≤ tail) with hkept
  have hle : ∀ q ∈ kept, q ≤ tail := fun q hq => by simpa using (List.mem_filter.mp hq).2
  have hnext : nextPos r.pos tail kept limit = r.pos ∨ nextPos r.pos tail kept limit ≤ tail + 1 :=
    nextPos_cases hle
  refine ⟨?_, fun _ ht' => absurd ht' (Option.some_ne_none _).symm,
    fun _ _ ht' => absurd ht' (Option.some_ne_none _).symm, ?_⟩
  · show nextPos r.pos tail kept limit = r.start ∨ nextPos r.pos tail kept limit ≤ visibleTail s.st + 1
    rcases hnext with heq | hle
    · rw [heq]
      exact h.reached
    · exact Or.inr (by omega)
  · intro row hrow hstart hpos
    show row.seq ∈ r.received ++ kept
    by_cases hold : row.seq < r.pos
    · exact List.mem_append_left _ (h.complete row hrow hstart hold)
    · have hpos' : row.seq < nextPos r.pos tail kept limit := hpos
      have hstart' : r.pos ≤ bound := by
        rcases hnext with heq | hle <;> omega
      refine List.mem_append_right _ ?_
      rw [hkept, readOplog_kept hw hbound hstart'] at hpos' ⊢
      refine mem_page (hw.visible_ascending.filter _) ?_ (not_lt.mp hold) hpos'
      exact List.mem_filter.mpr ⟨List.mem_map_of_mem hrow, by simpa using hold⟩

theorem Reading.all_step {s : Sync} (h : ∀ r, Reading s (s.readers r)) (hw : Window s) (e : Event)
    (r : ℕ) : Reading (s.step e) ((s.step e).readers r) := by
  have hkeep := (h r).step hw e
  have hupdate : ∀ (u : ℕ) (reader : Reader), Reading s reader →
      Reading { s with readers := Function.update s.readers u reader }
        (Function.update s.readers u reader r) := by
    intro u reader hreader
    by_cases hr : r = u
    · rw [hr, Function.update_self]
      exact ⟨hreader.reached, hreader.given, hreader.bounded, hreader.complete⟩
    · rw [Function.update_of_ne hr]
      exact ⟨(h r).reached, (h r).given, (h r).bounded, (h r).complete⟩
  cases e with
  | mint t nows =>
    have hreaders : (s.step (.mint t nows)).readers = s.readers := by
      simp only [Sync.step]
      split <;> rfl
    exact hreaders ▸ hkeep
  | prepare now => exact hkeep
  | stamp t now =>
    have hreaders : (s.step (.stamp t now)).readers = s.readers := by
      simp only [Sync.step]
      split <;> rfl
    exact hreaders ▸ hkeep
  | finish t commit =>
    have hreaders : (s.step (.finish t commit)).readers = s.readers := by
      simp only [Sync.step]
      split <;> rfl
    exact hreaders ▸ hkeep
  | deregister t =>
    have hreaders : (s.step (.deregister t)).readers = s.readers := by
      simp only [Sync.step]
      split <;> rfl
    exact hreaders ▸ hkeep
  | release t =>
    have hreaders : (s.step (.release t)).readers = s.readers := by
      simp only [Sync.step]
      split
      · rfl
      · split <;> rfl
    exact hreaders ▸ hkeep
  | takeTail u =>
    refine hupdate u ⟨_, _, some (visibleTail s.st), none, _⟩ ⟨(h u).reached, ?_, ?_, (h u).complete⟩
    · intro tail ht
      exact le_of_eq (Option.some.inj ht).symm
    · exact fun _ _ _ hb => absurd hb (Option.some_ne_none _).symm
  | readBound u =>
    refine hupdate u ⟨_, _, _, some (visibleTail s.st), _⟩
      ⟨(h u).reached, (h u).given, ?_, (h u).complete⟩
    intro tail bound ht hb
    exact ((h u).given tail ht).trans (le_of_eq (Option.some.inj hb))
  | readRows u limit =>
    simp only [Sync.step]
    split
    · rename_i tail bound ht hb
      exact hupdate u _ ((h u).consume hw ht hb limit)
    · exact h r

/-- The synchronous oplog loses no row for its readers: what is visible at or below a tail that was
    given, at that time or any later one, was visible when the tail was; and a reader has received
    every visible row between its start and its position. -/
theorem readers_never_skip (nextSeq secs ord : ℤ) (starts : ℕ → ℤ) (events events' : List Event) :
    let s := (Sync.opened nextSeq secs ord starts).run events
    let s' := s.run events'
    (∀ row ∈ s'.visible, row.seq ≤ visibleTail s.st → row ∈ s.visible) ∧
    (∀ r tail, (s.readers r).tail = some tail →
      ∀ row ∈ s'.visible, row.seq ≤ tail → row ∈ s.visible) ∧
    (∀ r, ∀ row ∈ s'.visible, (s'.readers r).start ≤ row.seq → row.seq < (s'.readers r).pos →
      row.seq ∈ (s'.readers r).received) := by
  intro s s'
  have hinv : ∀ es, Window ((Sync.opened nextSeq secs ord starts).run es) ∧
      ∀ r, Reading ((Sync.opened nextSeq secs ord starts).run es)
        (((Sync.opened nextSeq secs ord starts).run es).readers r) := by
    intro es
    refine Library.run_invariant Sync.step
      (P := fun s => Window s ∧ ∀ r, Reading s (s.readers r)) (fun _ e h => ?_) es _ ⟨?_, ?_⟩
    · exact ⟨h.1.step e, Reading.all_step h.2 h.1 e⟩
    · exact window_opened nextSeq secs ord starts
    · intro r
      refine ⟨Or.inl rfl, ?_, ?_, ?_⟩
      · exact fun _ ht => absurd ht (Option.some_ne_none _).symm
      · exact fun _ _ ht => absurd ht (Option.some_ne_none _).symm
      · exact fun _ hrow => absurd hrow List.not_mem_nil
  have hs := hinv events
  have hs' : Window s' ∧ ∀ r, Reading s' (s'.readers r) := by
    have hrun : s' = (Sync.opened nextSeq secs ord starts).run (events ++ events') :=
      (List.foldl_append ..).symm
    rw [hrun]
    exact hinv _
  refine ⟨fun row hrow htail => ?_, fun r tail ht row hrow hle => ?_, fun r => (hs'.2 r).complete⟩
  · exact hs.1.visible_run events' hrow htail
  · exact hs.1.visible_run events' hrow (hle.trans ((hs.2 r).given tail ht))

end Secantus.Oplog
