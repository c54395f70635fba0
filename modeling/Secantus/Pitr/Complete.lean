/-
  What a restore has replayed when it returns.

  A rolled-back transaction leaves its sequence numbers unused for good, so a complete archive has holes
  too. A row past a hole is lost whenever the restore does not fail, and it fails only when a bound is set
  and never reached. `restore_complete_iff` is the exact condition.
-/
import Secantus.Pitr.Restore

namespace Secantus.Pitr

open Secantus Secantus.Library Secantus.Wire

/-! ## What a restore replays -/

theorem sorted_contiguous {expected : ℤ} {rows : List (ℤ × Document)}
    (h : rows.Pairwise fun a b => a.1 < b.1) :
    (contiguous expected rows).Pairwise fun a b => a.1 < b.1 := by
  have hsub : ∀ expected, (contiguous expected rows).Sublist rows := by
    clear h
    induction rows with
    | nil => exact fun _ => List.Sublist.refl []
    | cons row rows ih =>
      intro expected
      rw [contiguous]
      split
      · exact List.nil_sublist _
      · exact (ih _).cons_cons _
  exact h.sublist (hsub expected)

/-- A row is replayed when every number from `expected` to its own is there and within the bound. -/
theorem mem_replayed_iff {bound : Bound} {rows : List (ℤ × Document)} {expected : ℤ}
    (hsorted : rows.Pairwise fun a b => a.1 < b.1) (hfrom : ∀ row ∈ rows, expected ≤ row.1)
    (row : ℤ × Document) : row ∈ upToBound bound (contiguous expected rows) ↔
      row ∈ rows ∧ ∀ q, expected ≤ q → q ≤ row.1 →
        ∃ entry, (q, entry) ∈ rows ∧ withinBound bound entry = true := by
  induction rows generalizing expected with
  | nil => simp [contiguous, upToBound]
  | cons first rows ih =>
    obtain ⟨seq, entry⟩ := first
    obtain ⟨hlater, hsorted⟩ := List.pairwise_cons.mp hsorted
    have hseq : expected ≤ seq := hfrom (seq, entry) List.mem_cons_self
    rw [contiguous]
    by_cases hgap : seq = expected
    · subst hgap
      rw [if_neg (by simp)]
      have hnext : ∀ row ∈ rows, seq + 1 ≤ row.1 := fun row hrow => hlater row hrow
      have ih := ih hsorted hnext
      cases hbound : withinBound bound entry with
      | false =>
        -- the first row is past the bound, and every later row is behind it
        have hnone : upToBound bound ((seq, entry) :: contiguous (seq + 1) rows) = [] := by
          simp [upToBound, hbound]
        rw [hnone]
        refine iff_of_false List.not_mem_nil ?_
        rintro ⟨hrow, hall⟩
        obtain ⟨entry', hmem, hwithin⟩ := hall seq le_rfl (hfrom row hrow)
        rcases List.mem_cons.mp hmem with heq | hmem
        · cases heq
          rw [hbound] at hwithin
          cases hwithin
        · have := hlater _ hmem
          omega
      | true =>
        have hcons : upToBound bound ((seq, entry) :: contiguous (seq + 1) rows) =
            (seq, entry) :: upToBound bound (contiguous (seq + 1) rows) := by
          simp [upToBound, hbound]
        rw [hcons, List.mem_cons, ih]
        constructor
        · rintro (rfl | ⟨hrow, hall⟩)
          · refine ⟨List.mem_cons_self, fun q hq hq' => ⟨entry, ?_, hbound⟩⟩
            rw [show q = seq by exact le_antisymm hq' hq]
            exact List.mem_cons_self
          · refine ⟨List.mem_cons_of_mem _ hrow, fun q hq hq' => ?_⟩
            by_cases hfirst : q = seq
            · exact ⟨entry, hfirst ▸ List.mem_cons_self, hbound⟩
            · obtain ⟨entry', hmem, hwithin⟩ := hall q (by omega) hq'
              exact ⟨entry', List.mem_cons_of_mem _ hmem, hwithin⟩
        · rintro ⟨hrow, hall⟩
          rcases List.mem_cons.mp hrow with rfl | hrow
          · exact Or.inl rfl
          · refine Or.inr ⟨hrow, fun q hq hq' => ?_⟩
            obtain ⟨entry', hmem, hwithin⟩ := hall q (by omega) hq'
            rcases List.mem_cons.mp hmem with heq | hmem
            · cases heq
              omega
            · exact ⟨entry', hmem, hwithin⟩
    · rw [if_pos hgap]
      refine iff_of_false List.not_mem_nil ?_
      rintro ⟨hrow, hall⟩
      -- nothing has the number the run should start with
      obtain ⟨entry', hmem, -⟩ := hall expected le_rfl (hfrom row hrow)
      rcases List.mem_cons.mp hmem with heq | hmem
      · cases heq
        exact hgap rfl
      · have := hlater _ hmem
        omega

/-- A restore that returns replays the run after its base, up to the bound. -/
theorem restore_replayed {σ : Type} {C : Crate} {E : Engine Base σ} {archive : Archive} {bound : Bound}
    {carryOplog : Bool} {stats : ReplayStats} {target : Target σ}
    (h : restoreFromArchiveDir C E archive bound carryOplog = .ok (stats, target)) :
    ∃ g, gather C archive (baseHead archive bound) carryOplog = .ok g ∧
      target.replayed = upToBound bound (contiguous (baseHead archive bound + 1) g.rows.entries) := by
  unfold restoreFromArchiveDir at h
  simp only [bind, Except.bind] at h
  split at h
  · cases h
  split at h
  · cases h
  rename_i g hg
  split at h
  · cases h
  split at h
  · cases h
  rename_i out hreplay
  split at h
  · cases h
  split at h
  · cases h
  split at h
  · cases h
  cases h
  have hreplayed := (replayEntries_spec hreplay).1
  exact ⟨g, hg, hreplayed⟩

/-! ## Nothing given is lost -/

/-- Every given row within the bound was replayed, in the order of the numbers and no number twice. -/
structure Complete (bound : Bound) (given replayed : List (ℤ × Document)) : Prop where
  ordered : replayed.Pairwise fun a b => a.1 < b.1
  all : ∀ row ∈ given, withinBound bound row.2 = true → row ∈ replayed

/-- Every given row within the bound is the first of its number, and every number between the base and it
    was given, within the bound too. -/
def Unbroken (bound : Bound) (head : ℤ) (given : List (ℤ × Document)) : Prop :=
  ∀ row ∈ given, withinBound bound row.2 = true →
    given.lookup row.1 = some row.2 ∧
      ∀ q, head < q → q < row.1 → ∃ entry, given.lookup q = some entry ∧ withinBound bound entry = true

/-- A restore that returns has replayed all it was given up to its bound exactly when no such row has a
    hole before it. -/
theorem restore_complete_iff {σ : Type} {C : Crate} {E : Engine Base σ} {archive : Archive} {bound : Bound}
    {carryOplog : Bool} {stats : ReplayStats} {target : Target σ}
    (h : restoreFromArchiveDir C E archive bound carryOplog = .ok (stats, target)) :
    ∃ given, archivedRows C archive (baseHead archive bound) = .ok given ∧
      (Complete bound given target.replayed ↔ Unbroken bound (baseHead archive bound) given) := by
  obtain ⟨g, hg, hreplayed⟩ := restore_replayed h
  obtain ⟨given, hgiven, hget⟩ := gather_rows hg
  refine ⟨given, hgiven, ?_⟩
  rw [hreplayed]
  generalize baseHead archive bound = head at *
  have hentries : ∀ q entry, (q, entry) ∈ g.rows.entries ↔ given.lookup q = some entry := by
    intro q entry
    rw [← SortedMap.get_eq_some_iff, hget]
  have hfrom : ∀ row ∈ g.rows.entries, head + 1 ≤ row.1 := by
    intro row hrow
    have hmem := SortedMap.mem_of_lookup ((hentries row.1 row.2).mp hrow)
    exact archivedRows_gt hgiven _ hmem
  have hmem := @mem_replayed_iff bound _ _ g.rows.sorted hfrom
  constructor
  · intro hcomplete row hrow hwithin
    obtain ⟨hrow', hall⟩ := (hmem row).mp (hcomplete.all row hrow hwithin)
    refine ⟨(hentries row.1 row.2).mp hrow', fun q hq hq' => ?_⟩
    obtain ⟨entry, hentry, hw⟩ := hall q (by omega) (by omega)
    exact ⟨entry, (hentries q entry).mp hentry, hw⟩
  · intro hunbroken
    refine ⟨?_, fun row hrow hwithin => ?_⟩
    · exact (sorted_contiguous g.rows.sorted).sublist (List.takeWhile_sublist _)
    · obtain ⟨hfirst, hbefore⟩ := hunbroken row hrow hwithin
      refine (hmem row).mpr ⟨(hentries row.1 row.2).mpr hfirst, fun q hq hq' => ?_⟩
      by_cases hself : q = row.1
      · exact ⟨row.2, (hentries q row.2).mpr (hself ▸ hfirst), hwithin⟩
      · obtain ⟨entry, hentry, hw⟩ := hbefore q (by omega) (by omega)
        exact ⟨entry, (hentries q entry).mpr hentry, hw⟩

/-- The entry dated `n`, its row of number `n`, and the bytes of that. -/
def datedEntry (n : ℕ) : Document := [("ts", .timestamp ⟨UInt32.ofNat n, 1⟩)]

def datedRow (n : ℕ) : Document := [("s", .int64 (Int64.ofNat n)), ("e", .document (datedEntry n))]

def datedBytes (n : ℕ) : Bytes :=
  docBytes [(utf8 "s", .int64 (Int64.ofNat n)),
    (utf8 "e", .document [(utf8 "ts", .timestamp ⟨UInt32.ofNat n, 1⟩)])]

/-- The crate on such rows. -/
def datedCrate : Crate where
  decode bytes :=
    match [1, 2, 3, 4].find? fun n => datedBytes n = bytes with
    | some n => .ok (datedRow n)
    | none => .error (.other "not a dated row")
  encode _ := .error (.other "not a dated row")

/-- An engine that takes every entry. -/
def takesAll : Engine Base (List Document) where
  extract _ := .ok []
  openStore entries := .ok entries
  applyEntry entries entry := .ok (entries ++ [entry], true)
  importOplogSegment entries _ _ := .ok entries
  checkpoint entries := .ok entries

/-- An archive of one segment with these rows. -/
def oneSegment (ns : List ℕ) : Archive where
  segments := [ns.flatMap fun n => be32 (datedBytes n).length ++ datedBytes n]
  bases := []
  ascending := List.Pairwise.nil

theorem length_datedBytes {n : ℕ} (h : n ∈ [1, 2, 3, 4]) : (datedBytes n).length = 36 := by
  revert n
  decide

theorem fromBytes_dated {n : ℕ} (h : n ∈ [1, 2, 3, 4]) :
    fromBytes datedCrate (datedBytes n) = .ok (datedRow n) := by
  have hwhole := length_datedBytes h
  have hdeclared : i32Le ((datedBytes n).take 4) = 36 := by
    revert n
    decide
  have hfind : [1, 2, 3, 4].find? (fun m => datedBytes m = datedBytes n) = some n := by
    revert n
    decide
  rw [fromBytes]
  simp only [hdeclared, hwhole, datedCrate]
  rw [if_pos (by decide), show Int.toNat 36 = (datedBytes n).length from hwhole.symm, List.take_length,
    hfind]

theorem archivedRows_oneSegment {ns : List ℕ} (h : ∀ n ∈ ns, n ∈ [1, 2, 3, 4]) :
    archivedRows datedCrate (oneSegment ns) 0 =
      .ok (ns.map fun n : ℕ => ((n : ℤ), datedEntry n)) := by
  have hread : readSegmentFile datedCrate (ns.flatMap fun n => be32 (datedBytes n).length ++ datedBytes n) =
      .ok (ns.map fun n => Row.ofDoc (datedRow n)) := by
    induction ns with
    | nil =>
      rw [List.flatMap_nil, readSegmentFile]
      rfl
    | cons n ns ih =>
      have hn := h n List.mem_cons_self
      have hlen : (datedBytes n).length < 2 ^ 32 := by
        rw [length_datedBytes hn]
        decide
      rw [List.flatMap_cons, List.append_assoc, readSegmentFile_row hlen (fromBytes_dated hn),
        ih fun m hm => h m (List.mem_cons_of_mem _ hm)]
      rfl
  have hseq : ∀ n ∈ [1, 2, 3, 4], 0 < (Int64.ofNat n).toInt ∧ (Int64.ofNat n).toInt = n := by decide
  have hafter : afterHead 0 (ns.map fun n => Row.ofDoc (datedRow n)) =
      ns.map fun n : ℕ => ((n : ℤ), datedEntry n) := by
    rw [afterHead, List.filter_eq_self.mpr ?_, List.map_map]
    · refine List.map_congr_left fun n hn => ?_
      show ((Int64.ofNat n).toInt, _) = _
      rw [(hseq n (h n hn)).2]
      rfl
    · intro row hrow
      obtain ⟨n, hn, rfl⟩ := List.mem_map.mp hrow
      exact decide_eq_true (hseq n (h n hn)).1
  simp only [archivedRows, oneSegment, iterArchivedOplog, hread, Except.map, List.append_nil, hafter,
    List.getLast?_nil]

/-- Rows 1, 2 and 3 restored to the time of row 2: rows 1 and 2 are replayed. -/
theorem restore_complete_whole : ∃ stats target,
    restoreFromArchiveDir datedCrate takesAll (oneSegment [1, 2, 3]) ⟨some ⟨2, 9⟩, none⟩ false =
        .ok (stats, target) ∧
      ∃ given, archivedRows datedCrate (oneSegment [1, 2, 3]) 0 = .ok given ∧
        Complete ⟨some ⟨2, 9⟩, none⟩ given target.replayed := by
  have hok : (restoreFromArchiveDir datedCrate takesAll (oneSegment [1, 2, 3]) ⟨some ⟨2, 9⟩, none⟩
      false).toOption.isSome = true := by
    decide +kernel
  cases hrun : restoreFromArchiveDir datedCrate takesAll (oneSegment [1, 2, 3]) ⟨some ⟨2, 9⟩, none⟩ false with
  | error e =>
    rw [hrun] at hok
    cases hok
  | ok out =>
    obtain ⟨given, hgiven, hiff⟩ := restore_complete_iff hrun
    refine ⟨out.1, out.2, rfl, given, hgiven, hiff.mpr ?_⟩
    have hrows := archivedRows_oneSegment (show ∀ n ∈ [1, 2, 3], n ∈ [1, 2, 3, 4] by decide)
    cases hgiven.symm.trans hrows
    intro row hrow hwithin
    simp only [List.map_cons, List.map_nil, List.mem_cons, List.not_mem_nil, or_false] at hrow
    rcases hrow with rfl | rfl | rfl
    · refine ⟨rfl, fun q hq hq' => ?_⟩
      have hq : (0 : ℤ) < q := hq
      have hq' : q < (1 : ℤ) := hq'
      omega
    · refine ⟨rfl, fun q hq hq' => ?_⟩
      have hq : (0 : ℤ) < q := hq
      have hq' : q < (2 : ℤ) := hq'
      obtain rfl : q = 1 := by omega
      exact ⟨datedEntry 1, rfl, by decide⟩
    · exact absurd hwithin (by decide)

/-- Rows 1, 2 and 4, with no bound: the restore returns, and row 4 is not replayed. -/
theorem restore_loses_past_hole : ∃ out given,
    restoreFromArchiveDir datedCrate takesAll (oneSegment [1, 2, 4]) ⟨none, none⟩ false = .ok out ∧
      archivedRows datedCrate (oneSegment [1, 2, 4]) 0 = .ok given ∧
      ¬ Complete ⟨none, none⟩ given out.2.replayed := by
  have hseqs : (restoreFromArchiveDir datedCrate takesAll (oneSegment [1, 2, 4]) ⟨none, none⟩
      false).toOption.map (fun out => out.2.replayed.map Prod.fst) = some [1, 2] := by
    decide +kernel
  cases hrun : restoreFromArchiveDir datedCrate takesAll (oneSegment [1, 2, 4]) ⟨none, none⟩ false with
  | error e =>
    rw [hrun] at hseqs
    cases hseqs
  | ok out =>
    rw [hrun] at hseqs
    have hreplayed : out.2.replayed.map Prod.fst = [1, 2] := Option.some.inj hseqs
    refine ⟨out, _, rfl, archivedRows_oneSegment (by decide), fun hcomplete => ?_⟩
    have hmem := hcomplete.all (4, datedEntry 4) (by simp) rfl
    have hfour : (4 : ℤ) ∈ out.2.replayed.map Prod.fst := List.mem_map_of_mem hmem
    rw [hreplayed] at hfour
    revert hfour
    decide

end Secantus.Pitr
