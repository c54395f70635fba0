/-
  A grace join is the join all at once (`grace_join_exact`): whatever the budget, the partitioning hash, the
  sizes of the rows and the batches they arrive in, `grace_join` and `left_built_join` hand on its rows, in its
  order. Every row of the join is handed on once (`coe_graceBody`, `coe_leftBuiltBody`), and the row numbers of
  the join all at once increase along it (`join_pairwise`), so sorting by them gives its order back.
-/
import Secantus.GraceJoin.Sides

namespace Secantus.GraceJoin

open Secantus.Library

variable {α β γ ρ : Type*} {h : Handler β γ} {ops : GraceOps α β γ} {P : Plain α β γ}

/-! ## The order of the join all at once -/

theorem key_lt_of_lseq {a b : Joined γ} (hlt : seqKey a.lseq < seqKey b.lseq) : a.key < b.key :=
  Prod.Lex.toLex_lt_toLex.mpr (.inl hlt)

theorem key_lt_of_rseq {a b : Joined γ} (heq : a.lseq = b.lseq) (hlt : seqKey a.rseq < seqKey b.rseq) :
    a.key < b.key := Prod.Lex.toLex_lt_toLex.mpr (.inr ⟨congrArg seqKey heq, hlt⟩)

theorem seqKey_some_lt {m n : ℕ} (hlt : m < n) : seqKey (some m) < seqKey (some n) := WithTop.coe_lt_coe.mpr hlt

theorem lseq_of_mem_leftRow {outerLeft : Bool} {right : List (Numbered β)} {l : Numbered α} {d : Joined γ}
    (hd : d ∈ P.withNumbers.leftRow outerLeft right l) : d.lseq = some l.seq := by
  unfold Plain.leftRow at hd
  split at hd
  · split at hd
    · rw [List.mem_singleton.mp hd]
      rfl
    · exact absurd hd List.not_mem_nil
  · obtain ⟨r, _, rfl⟩ := List.mem_map.mp hd
    rfl

theorem leftRow_pairwise (outerLeft : Bool) {right : List (Numbered β)}
    (hright : right.Pairwise fun a b => a.seq < b.seq) (l : Numbered α) :
    (P.withNumbers.leftRow outerLeft right l).Pairwise fun a b => a.key < b.key := by
  unfold Plain.leftRow
  split
  · split
    · exact List.pairwise_singleton _ _
    · exact .nil
  · refine List.pairwise_map.mpr ((hright.filter _).imp ?_)
    intro a b hab
    exact key_lt_of_rseq rfl (seqKey_some_lt hab)

theorem join_pairwise (outerLeft outerRight : Bool) {right : List (Numbered β)} {left : List (Numbered α)}
    (hright : right.Pairwise fun a b => a.seq < b.seq) (hleft : left.Pairwise fun a b => a.seq < b.seq) :
    (P.withNumbers.join outerLeft outerRight right left).Pairwise fun a b => a.key < b.key := by
  unfold Plain.join
  refine List.pairwise_append.mpr ⟨?_, ?_, ?_⟩
  · refine List.pairwise_flatMap.mpr ⟨fun l _ => leftRow_pairwise outerLeft hright l, hleft.imp ?_⟩
    intro a b hab d hd e he
    refine key_lt_of_lseq ?_
    rw [lseq_of_mem_leftRow hd, lseq_of_mem_leftRow he]
    exact seqKey_some_lt hab
  · split
    · refine List.pairwise_map.mpr ((hright.filter _).imp ?_)
      intro a b hab
      exact key_lt_of_rseq rfl (seqKey_some_lt hab)
    · exact .nil
  · intro d hd e he
    obtain ⟨l, _, hd⟩ := List.mem_flatMap.mp hd
    split at he
    · obtain ⟨r, _, rfl⟩ := List.mem_map.mp he
      refine key_lt_of_lseq ?_
      rw [lseq_of_mem_leftRow hd]
      exact WithTop.coe_lt_top _
    · exact absurd he List.not_mem_nil

theorem map_row_join (outerLeft outerRight : Bool) (right : List (Numbered β)) (left : List (Numbered α)) :
    (P.withNumbers.join outerLeft outerRight right left).map Joined.row =
      P.join outerLeft outerRight (right.map Numbered.row) (left.map Numbered.row) := by
  have hrow : ∀ l : Numbered α, (P.withNumbers.leftRow outerLeft right l).map Joined.row =
      P.leftRow outerLeft (right.map Numbered.row) l.row := by
    intro l
    have hfilter : (right.map Numbered.row).filter (P.pairs l.row) =
        (right.filter (P.withNumbers.pairs l)).map Numbered.row := List.filter_map
    unfold Plain.leftRow
    rw [hfilter]
    cases right.filter (P.withNumbers.pairs l) with
    | nil => cases outerLeft <;> rfl
    | cons r rs =>
      simp only [List.map_cons, List.map_map]
      rfl
  have hright : ∀ r : Numbered β, (left.map Numbered.row).any (P.pairs · r.row) =
      left.any (P.withNumbers.pairs · r) := fun r => List.any_map
  unfold Plain.join
  rw [List.map_append, List.map_flatMap, List.flatMap_map]
  simp only [hrow]
  congr 1
  cases outerRight with
  | false => rfl
  | true =>
    simp only [if_true, List.map_map, List.filter_map]
    simp only [Function.comp_def, hright]
    rfl

/-! ## The NULL extensions decided last -/

theorem coe_nullExtendUnmatched (hops : ops.Joins P) (hol : ops.outerLeft = true) {rows : List (Numbered α)}
    {matched : Finset ℕ} {R : Multiset (Numbered β)}
    (hmatched : ∀ e ∈ rows, e.seq ∈ matched ↔ ∃ r ∈ R, P.pairs e.row r.row = true) :
    ((nullExtendUnmatched ops rows matched).flatten : Multiset (Joined γ)) =
      P.withNumbers.leftAlone true rows R := by
  have hfilter : ((rows.filter fun d => d.seq ∉ matched : List (Numbered α)) : Multiset (Numbered α)) =
      dangling P.withNumbers.Pairs rows R := by
    unfold dangling
    rw [Multiset.filter_coe]
    refine congrArg _ (List.filter_congr fun e he => ?_)
    rw [decide_eq_decide, hmatched e he, not_exists]
    simp only [not_and]
    rfl
  have hjoin : ∀ unmatched : List (Numbered α), ((ops.join [] [unmatched] true).flatten : Multiset (Joined γ)) =
      (unmatched.map P.withNumbers.leftOnly : List (Joined γ)) := by
    intro unmatched
    rw [Multiset.coe_eq_coe.mpr (hops.asLeft hol _ _), Plain.coe_join]
    unfold Plain.inner Plain.leftAlone Plain.rightAlone
    simp
  unfold nullExtendUnmatched Plain.leftAlone
  rw [if_pos rfl, ← hfilter]
  dsimp only
  split
  · next hempty =>
    rw [List.isEmpty_iff.mp hempty]
    rfl
  · rw [hjoin]
    rfl

/-! ## Every row once -/

theorem nodup_seq (rows : List ρ) : ((numbered 0 rows).map Numbered.seq).Nodup :=
  List.pairwise_map.mpr ((numbered_pairwise 0 rows).imp ne_of_lt)

/-- Of two parts of numbered rows no row of one has the number of a row of the other. -/
theorem seq_ne_of_parts {A E : Multiset (Numbered ρ)} {rows : List ρ}
    (htotal : A + E = (numbered 0 rows : Multiset (Numbered ρ))) {a e : Numbered ρ} (ha : a ∈ A) (he : e ∈ E) :
    a.seq ≠ e.seq := by
  have hnodup : ((A + E).map Numbered.seq).Nodup := by
    rw [htotal]
    exact nodup_seq rows
  rw [Multiset.map_add, Multiset.nodup_add] at hnodup
  intro heq
  exact Multiset.disjoint_left.mp hnodup.2.2 (Multiset.mem_map_of_mem _ ha)
    (heq ▸ Multiset.mem_map_of_mem _ he)

theorem coe_nullKeys (hops : ops.Joins P) (hor : ops.outerRight = true) (rows : List (Numbered β)) :
    (((batches rows).flatMap fun batch => ops.join batch [] false).flatten : Multiset (Joined γ)) =
      (rows.map P.withNumbers.rightOnly : List (Joined γ)) := by
  have hjoin : ∀ batch : List (Numbered β), ((ops.join batch [] false).flatten : Multiset (Joined γ)) =
      (batch.map P.withNumbers.rightOnly : List (Joined γ)) := by
    intro batch
    rw [Multiset.coe_eq_coe.mpr (hops.join _ _), Plain.coe_join]
    unfold Plain.inner Plain.leftAlone Plain.rightAlone
    simp [hor]
  have hall : ∀ bs : List (List (Numbered β)), ((bs.flatMap fun batch => ops.join batch [] false).flatten :
      Multiset (Joined γ)) = (bs.flatten.map P.withNumbers.rightOnly : List (Joined γ)) := by
    intro bs
    induction bs with
    | nil => rfl
    | cons batch bs ih =>
      rw [List.flatMap_cons, List.flatten_append, ← Multiset.coe_add, ih, hjoin, List.flatten_cons,
        List.map_append, Multiset.coe_add]
  rw [hall, flatten_batches]

/-- The whole join, by the classes of its rows' keys: NULL keys match nothing. -/
theorem join_by_class (hops : ops.Joins P) {A N E : Multiset (Numbered α)} {R Rn : Multiset (Numbered β)}
    (hN : ∀ d ∈ N, ops.leftKey d.row = .null) (hRn : ∀ d ∈ Rn, ops.rightKey d.row = .null) :
    P.withNumbers.inner (A + N + E) (R + Rn) + P.withNumbers.leftAlone ops.outerLeft (A + N + E) (R + Rn) +
        P.withNumbers.rightAlone ops.outerRight (A + N + E) (R + Rn) =
      P.withNumbers.leftAlone ops.outerLeft N 0 + contribution ops P E A R +
        P.withNumbers.leftAlone ops.outerLeft E R +
        if ops.outerRight then Rn.map P.withNumbers.rightOnly else 0 := by
  have hleft : ∀ S : Multiset (Numbered β), Unrelated P.withNumbers.Pairs N S :=
    fun S l hl r _ => Plain.not_pairs (hops.leftNull l.row r.row (hN l hl))
  have hright : ∀ S : Multiset (Numbered α), Unrelated P.withNumbers.Pairs S Rn :=
    fun S l _ r hr => Plain.not_pairs (hops.rightNull l.row r.row (hRn r hr))
  have hinner : matched P.withNumbers.Pairs (A + N + E) (R + Rn) = matched P.withNumbers.Pairs (A + E) R := by
    rw [matched_add_right, matched_eq_zero _ (hright _), add_zero, matched_add_left, matched_add_left,
      matched_eq_zero _ (hleft R), add_zero, matched_add_left]
  have halone : dangling P.withNumbers.Pairs (A + N + E) (R + Rn) =
      dangling P.withNumbers.Pairs A R + N + dangling P.withNumbers.Pairs E R := by
    rw [dangling_add_right _ (hright _), dangling_add_left, dangling_add_left, dangling_eq_self _ (hleft R)]
  have hunmatched : dangling (fun r l => P.withNumbers.Pairs l r) (R + Rn) (A + N + E) =
      dangling (fun r l => P.withNumbers.Pairs l r) R (A + E) + Rn := by
    rw [dangling_add_left, dangling_eq_self _ (hright (A + N + E)).flip, add_right_comm,
      dangling_add_right _ (hleft R).flip]
  unfold contribution Plain.inner Plain.leftAlone Plain.rightAlone
  rw [hinner, halone, hunmatched, dangling_zero_right]
  cases ops.outerLeft <;> cases ops.outerRight <;>
    simp only [if_true, if_false, Bool.false_eq_true, Multiset.map_add, add_zero, zero_add] <;> ac_rfl

/-- Every row of the join is handed on once. -/
theorem coe_graceBody (hops : ops.Joins P) {g : GraceRight β} {rights : List β}
    (hg : g.Holds h ops.rightKey rights) (feedLeft : List (List α)) :
    ((graceBody h ops g feedLeft).flatten : Multiset (Joined γ)) =
      (P.withNumbers.join ops.outerLeft ops.outerRight (numbered 0 rights) (numbered 0 feedLeft.flatten) :
        List (Joined γ)) := by
  obtain ⟨N, hl⟩ := holds_readLeft (h := h) hops feedLeft
  unfold graceBody
  dsimp only
  generalize feedLeft.foldl (readLeftBatch h ops) .init = l at hl ⊢
  have hsep : Separated P.withNumbers.Pairs (fun p => (l.lparts p : Multiset (Numbered α)))
      fun p => (g.parts p : Multiset (Numbered β)) := by
    intro p q hpq d hd r hr
    obtain ⟨k, hk, hpart⟩ := hl.keys p d hd
    obtain ⟨k', hk', hpart'⟩ := hg.keys q r hr
    have hne : k ≠ k' := by
      rintro rfl
      exact hpq (hpart.symm.trans hpart')
    exact Plain.not_pairs (hops.keys d.row r.row k k' hk hk' hne)
  have hevery : ∀ e ∈ l.every, e.seq ∈ l.everySeqs := fun e he => (hl.every e.seq).mpr ⟨e, he, rfl⟩
  have hkeyed : ∀ p, ∀ d ∈ l.lparts p, (∃ k, ops.leftKey d.row = .key k) ∧ d.seq ∉ l.everySeqs := by
    intro p d hd
    obtain ⟨k, hk, _⟩ := hl.keys p d hd
    refine ⟨⟨k, hk⟩, fun hmem => ?_⟩
    obtain ⟨e, he, heq⟩ := (hl.every d.seq).mp hmem
    have hA : d ∈ l.lparts.total + N :=
      Multiset.mem_add.mpr (.inl (Multiset.mem_sum.mpr ⟨p, Finset.mem_univ p, hd⟩))
    exact seq_ne_of_parts hl.total hA (Multiset.mem_coe.mpr he) heq.symm
  have hadds := adds_parts ops P l.every hsep (fun p s => adds_joinSpilled h hops hevery g.budget 0 (g.parts p)
    (l.lparts p) (fun r hr => (hg.keys p r hr).imp fun k hk => hk.1) (hkeyed p) s) ⟨∅, l.out⟩
  generalize (List.finRange PARTITIONS).foldl _ _ = s at hadds ⊢
  have hmatched : ∀ e ∈ l.every, e.seq ∈ s.matched ↔
      ∃ r ∈ g.parts.total, P.pairs e.row r.row = true := by
    intro e he
    rw [hadds.matched]
    constructor
    · rintro (hn | ⟨e', he', heq, r, hr, hpair⟩)
      · exact absurd hn (Finset.notMem_empty _)
      · have hmem : ∀ d ∈ l.every, d ∈ numbered 0 feedLeft.flatten := fun d hd =>
          Multiset.mem_coe.mp (hl.total ▸ Multiset.mem_add.mpr (.inr (Multiset.mem_coe.mpr hd)))
        have hsame : e' = e := List.inj_on_of_nodup_map (nodup_seq _) (hmem e' he') (hmem e he) heq
        exact ⟨r, hr, hsame ▸ hpair⟩
    · rintro ⟨r, hr, hpair⟩
      exact .inr ⟨e, he, rfl, r, hr, hpair⟩
  have hout : (l.out.flatten : Multiset (Joined γ)) = P.withNumbers.leftAlone ops.outerLeft N 0 := by
    rw [← hl.out]
    exact (add_zero _).symm
  have hnulls : ((if ops.outerRight then (batches g.nullKeys).flatMap fun rows => ops.join rows [] false else
      []).flatten : Multiset (Joined γ)) =
      if ops.outerRight then (g.nullKeys : Multiset (Numbered β)).map P.withNumbers.rightOnly else 0 := by
    cases hor : ops.outerRight with
    | false => rfl
    | true => exact coe_nullKeys hops hor g.nullKeys
  have hext : ((if ops.outerLeft then nullExtendUnmatched ops l.every s.matched else []).flatten :
      Multiset (Joined γ)) = P.withNumbers.leftAlone ops.outerLeft l.every g.parts.total := by
    cases hol : ops.outerLeft with
    | false => rfl
    | true => exact coe_nullExtendUnmatched hops hol hmatched
  rw [List.flatten_append, List.flatten_append, ← Multiset.coe_add, ← Multiset.coe_add, hadds.out, hout, hext,
    hnulls, Plain.coe_join, ← hl.total, ← hg.total]
  exact (join_by_class hops hl.nullKeys hg.nulls).symm

/-! ## A left side held in memory -/

/-- The right rows read so far are joined with the left side or in the chunk. -/
structure RightRead.Holds (ops : GraceOps α β γ) (P : Plain α β γ) (left : List (Numbered α))
    (c : RightRead β γ) (done : Multiset (Numbered β)) (rows : List β) : Prop where
  total : done + c.chunk = (numbered 0 rows : Multiset (Numbered β))
  seq : c.rseq = rows.length
  progress : Adds ops P left 0 done ⟨∅, []⟩ c.progress

theorem contribution_add (E : Multiset (Numbered α)) (R R' : Multiset (Numbered β)) :
    contribution ops P E 0 R + contribution ops P E 0 R' = contribution ops P E 0 (R + R') := by
  unfold contribution Plain.inner Plain.leftAlone Plain.rightAlone
  rw [matched_add_right, dangling_add_left]
  cases ops.outerLeft <;> cases ops.outerRight <;>
    simp only [if_true, if_false, Bool.false_eq_true, Multiset.map_add, dangling_zero_left, Multiset.map_zero,
      add_zero] <;> ac_rfl

theorem Adds.trans {E : Multiset (Numbered α)} {R R' : Multiset (Numbered β)} {s s' s'' : Progress γ}
    (h₁ : Adds ops P E 0 R s s') (h₂ : Adds ops P E 0 R' s' s'') : Adds ops P E 0 (R + R') s s'' := by
  refine ⟨?_, fun n => ?_⟩
  · rw [h₂.out, h₁.out, add_assoc, contribution_add]
  · rw [h₂.matched, h₁.matched]
    simp only [Multiset.mem_add, or_and_right, exists_or, and_or_left, or_assoc]

theorem adds_flush (hops : ops.Joins P) (left : List (Numbered α)) (chunk : List (Numbered β)) (s : Progress γ) :
    Adds ops P left 0 chunk s (flush ops left chunk s) := by
  refine adds_takeJoined ops P (fun _ => true) (fun l hl => absurd hl List.not_mem_nil) (fun _ _ => rfl) ?_ s
  refine (hops.join chunk _).trans ?_
  rw [flatten_batches, List.nil_append]

theorem RightRead.holds_init (left : List (Numbered α)) : (RightRead.init : RightRead β γ).Holds ops P left 0 [] where
  total := rfl
  seq := rfl
  progress := adds_nothing P (.inl ⟨rfl, .inl rfl⟩) _

theorem RightRead.Holds.rows {left : List (Numbered α)} {c : RightRead β γ} {done : Multiset (Numbered β)}
    {rows : List β} (hc : c.Holds ops P left done rows) (docs : List β) :
    (docs.foldl (readRightRow h) c).Holds ops P left done (rows ++ docs) := by
  induction docs generalizing c rows with
  | nil => exact (List.append_nil rows).symm ▸ hc
  | cons row docs ih =>
    have hrow : (readRightRow h c row).Holds ops P left done (rows ++ [row]) := by
      refine ⟨?_, ?_, hc.progress⟩
      · rw [numbered_append, ← Multiset.coe_add, ← hc.total, readRightRow, ← Multiset.coe_add, Nat.zero_add,
          hc.seq, add_assoc]
        rfl
      · rw [readRightRow, hc.seq, List.length_append, List.length_singleton]
    have hrest := ih hrow
    rwa [List.append_assoc] at hrest

theorem RightRead.Holds.batch (hops : ops.Joins P) {left : List (Numbered α)} (budget : ℕ) {c : RightRead β γ}
    {done : Multiset (Numbered β)} {rows : List β} (hc : c.Holds ops P left done rows) (docs : List β) :
    ∃ done', (readRightBatch h ops left budget c docs).Holds ops P left done' (rows ++ docs) := by
  have hdocs := hc.rows (h := h) docs
  unfold readRightBatch
  dsimp only
  split
  · refine ⟨done + (docs.foldl (readRightRow h) c).chunk, ?_, hdocs.seq, ?_⟩
    · exact (add_zero _).trans hdocs.total
    · exact hdocs.progress.trans (adds_flush hops left _ _)
  · exact ⟨done, hdocs⟩

theorem holds_readRightBatches (hops : ops.Joins P) (left : List (Numbered α)) (budget : ℕ)
    (feedRight : List (List β)) :
    ∃ done, (feedRight.foldl (readRightBatch h ops left budget) .init).Holds ops P left done feedRight.flatten := by
  have hall : ∀ (feed : List (List β)) (c : RightRead β γ) (done : Multiset (Numbered β)) (rows : List β),
      c.Holds ops P left done rows →
      ∃ done', (feed.foldl (readRightBatch h ops left budget) c).Holds ops P left done' (rows ++ feed.flatten) := by
    intro feed
    induction feed with
    | nil => exact fun c done rows hc => ⟨done, (List.append_nil rows).symm ▸ hc⟩
    | cons docs feed ih =>
      intro c done rows hc
      obtain ⟨done₁, hbatch⟩ := hc.batch (h := h) hops budget docs
      obtain ⟨done', hrest⟩ := ih _ done₁ _ hbatch
      rw [List.append_assoc] at hrest
      exact ⟨done', hrest⟩
  exact hall feedRight _ 0 [] (RightRead.holds_init left)

theorem coe_leftBuiltBody (hops : ops.Joins P) (left : List α) (budget : ℕ) (feedRight : List (List β)) :
    ((leftBuiltBody h ops left budget feedRight).flatten : Multiset (Joined γ)) =
      (P.withNumbers.join ops.outerLeft ops.outerRight (numbered 0 feedRight.flatten) (numbered 0 left) :
        List (Joined γ)) := by
  obtain ⟨done, hc⟩ := holds_readRightBatches (h := h) hops (numbered 0 left) budget feedRight
  unfold leftBuiltBody
  dsimp only
  generalize feedRight.foldl (readRightBatch h ops (numbered 0 left) budget) .init = c at hc ⊢
  have hadds : Adds ops P (numbered 0 left) 0 (numbered 0 feedRight.flatten) ⟨∅, []⟩
      (if c.chunk.isEmpty then c.progress else flush ops (numbered 0 left) c.chunk c.progress) := by
    rw [← hc.total]
    split
    · next hempty =>
      rw [List.isEmpty_iff.mp hempty, Multiset.coe_nil, add_zero]
      exact hc.progress
    · exact hc.progress.trans (adds_flush hops _ _ _)
  generalize (if c.chunk.isEmpty then c.progress else flush ops (numbered 0 left) c.chunk c.progress) = s at hadds ⊢
  have hmatched : ∀ e ∈ numbered 0 left, e.seq ∈ s.matched ↔
      ∃ r ∈ (numbered 0 feedRight.flatten : Multiset (Numbered β)), P.pairs e.row r.row = true := by
    intro e he
    rw [hadds.matched]
    constructor
    · rintro (hn | ⟨e', he', heq, r, hr, hpair⟩)
      · exact absurd hn (Finset.notMem_empty _)
      · have hsame : e' = e := List.inj_on_of_nodup_map (nodup_seq _) he' he heq
        exact ⟨r, hr, hsame ▸ hpair⟩
    · rintro ⟨r, hr, hpair⟩
      exact .inr ⟨e, he, rfl, r, hr, hpair⟩
  have hext : ((if ops.outerLeft then nullExtendUnmatched ops (numbered 0 left) s.matched else []).flatten :
      Multiset (Joined γ)) =
      P.withNumbers.leftAlone ops.outerLeft (numbered 0 left) (numbered 0 feedRight.flatten) := by
    cases hol : ops.outerLeft with
    | false => rfl
    | true => exact coe_nullExtendUnmatched hops hol hmatched
  rw [List.flatten_append, ← Multiset.coe_add, hadds.out, hext, Plain.coe_join]
  unfold contribution
  rw [show P.withNumbers.leftAlone ops.outerLeft 0 (numbered 0 feedRight.flatten : Multiset (Numbered β)) = 0 from
    ite_self 0]
  simp only [List.flatten_nil, Multiset.coe_nil, zero_add, add_zero]
  ac_rfl

/-! ## The join -/

theorem flatten_orderedJoin (budget : ℕ) {body : List (List (Joined γ))} {right : List β} {left : List α}
    {outerLeft outerRight : Bool} (hbody : (body.flatten : Multiset (Joined γ)) =
      (P.withNumbers.join outerLeft outerRight (numbered 0 right) (numbered 0 left) : List (Joined γ))) :
    (orderedJoin h budget body).flatten = P.join outerLeft outerRight right left := by
  rw [orderedJoin_eq h budget (join_pairwise outerLeft outerRight (numbered_pairwise 0 right)
    (numbered_pairwise 0 left)) (Multiset.coe_eq_coe.mp hbody), map_row_join, map_row_numbered, map_row_numbered]

/-- A grace join hands on the rows of the join all at once, in its order, and so does a join of a left side that
is held in memory. -/
theorem grace_join_exact (h : Handler β γ) (ops : GraceOps α β γ) (P : Plain α β γ) (hops : ops.Joins P)
    (budget : ℕ) :
    (∀ (feedRight : List (List β)) (feedLeft : List (List α)) (right : GraceRight β),
      readRight h ops.rightKey budget feedRight = some right →
        (graceJoin h ops right feedLeft).flatten =
          P.join ops.outerLeft ops.outerRight feedRight.flatten feedLeft.flatten) ∧
    ∀ (left : List α) (feedRight : List (List β)),
      (leftBuiltJoin h ops left budget feedRight).flatten =
        P.join ops.outerLeft ops.outerRight feedRight.flatten left := by
  refine ⟨fun feedRight feedLeft right hread => ?_, fun left feedRight => ?_⟩
  · exact flatten_orderedJoin _ (coe_graceBody hops (holds_readRight hread).1 feedLeft)
  · exact flatten_orderedJoin _ (coe_leftBuiltBody hops left budget feedRight)

/-- Rows of one nullable number: a NULL matches nothing, and a left row of the number 7, which has no hash, matches
every number. -/
def numberJoin : Plain (Option ℕ) (Option ℕ) (Option (Option ℕ) × Option (Option ℕ)) where
  pairs l r := l.isSome && r.isSome && (l == r || l == some 7)
  both l r := (some l, some r)
  leftOnly l := (some l, none)
  rightOnly r := (none, some r)

def numberKey : Option ℕ → KeyClass
  | none => .null
  | some n => if n = 7 then .other else .key [toString n]

def numberOps : GraceOps (Option ℕ) (Option ℕ) (Option (Option ℕ) × Option (Option ℕ)) where
  leftKey := numberKey
  rightKey := numberKey
  join right feed asLeft := [numberJoin.withNumbers.join true (!asLeft) right feed.flatten]
  outerLeft := true
  outerRight := true

theorem numberKey_eq {l : Option ℕ} {k : List String} (h : numberKey l = .key k) :
    ∃ n, l = some n ∧ n ≠ 7 ∧ k = [toString n] := by
  cases l with
  | none => cases h
  | some n =>
    rw [numberKey] at h
    split at h
    · cases h
    · next hn => exact ⟨n, rfl, hn, (KeyClass.key.inj h).symm⟩

theorem numberKey_null {l : Option ℕ} (h : numberKey l = .null) : l = none := by
  cases l with
  | none => rfl
  | some n =>
    rw [numberKey] at h
    split at h <;> cases h

theorem numberOps_joins : numberOps.Joins numberJoin where
  join right feed := by
    rw [numberOps, List.flatten_singleton]
    exact .refl _
  asLeft _ right feed := by
    rw [numberOps, List.flatten_singleton]
    exact .refl _
  keys l r k k' hk hk' hne := by
    obtain ⟨n, rfl, hn, rfl⟩ := numberKey_eq hk
    obtain ⟨m, rfl, -, rfl⟩ := numberKey_eq hk'
    have hnm : n ≠ m := fun heq => hne (heq ▸ rfl)
    simp [numberJoin, hnm, hn]
  leftNull l r hl := by
    rw [numberKey_null hl]
    rfl
  rightNull l r hr := by
    rw [numberKey_null hr]
    cases l <;> rfl

def numberHandler : Handler (Option ℕ) (Option (Option ℕ) × Option (Option ℕ)) where
  partitionOf key depth := ⟨((key.map String.length).sum + depth) % PARTITIONS, Nat.mod_lt _ (by decide)⟩
  spoolBytes _ := 1
  docBytes _ := 1
  joinedBytes _ := 1
  sorter :=
    { sort := fun rows => rows.mergeSort rowLe
      perm := fun rows => List.mergeSort_perm rows rowLe
      pairwise := List.pairwise_mergeSort rowLe_trans fun a b => by simpa using rowLe_total a b }

theorem grace_join_exact_numbers :
    (graceJoin numberHandler numberOps ((readRight numberHandler numberKey 1 [[some 1, none], [some 2]]).getD
        (.new 0)) [[some 1, none], [some 7]]).flatten =
      [(some (some 1), some (some 1)), (some none, none), (some (some 7), some (some 1)),
        (some (some 7), some (some 2)), (none, some none)] ∧
    (leftBuiltJoin numberHandler numberOps [some 3, some 7] 1 [[none, some 3], [some 7]]).flatten =
      [(some (some 3), some (some 3)), (some (some 7), some (some 3)), (some (some 7), some (some 7)),
        (none, some none)] := by
  obtain ⟨hgrace, hbuilt⟩ := grace_join_exact numberHandler numberOps numberJoin numberOps_joins 1
  exact ⟨hgrace [[some 1, none], [some 2]] [[some 1, none], [some 7]] _ rfl,
    hbuilt [some 3, some 7] [[none, some 3], [some 7]]⟩

end Secantus.GraceJoin
