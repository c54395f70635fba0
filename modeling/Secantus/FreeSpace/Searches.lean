/-
  What a search of the map returns, and what it leaves of the map: it may forget blocks, correct the upper levels and
  move the slots its next visits begin at, and a block it returns has at least the category asked for in the map it
  leaves.
-/
import Secantus.FreeSpace.Fork

namespace Secantus.FreeSpace

theorem location_mul_add {n slot : ℕ} (hslot : slot < slotsPerPage) :
    location (n * slotsPerPage + slot) = ({ level := 0, logpageno := n }, slot) := by
  have hpos : 0 < slotsPerPage := Nat.lt_of_le_of_lt (Nat.zero_le _) hslot
  unfold location
  rw [Nat.mul_comm, Nat.mul_add_div hpos, Nat.div_eq_of_lt hslot, Nat.mul_add_mod, Nat.mod_eq_of_lt hslot]
  rfl

theorem eq_some_getD {o : Option ℕ} (h : o.isSome) : o = some (o.getD 0) := by
  obtain ⟨n, rfl⟩ := Option.isSome_iff_exists.mp h
  rfl

namespace Fsm

theorem category_congr {f g : Fsm} (h : ∀ b, (g.pageAt b).nodes = (f.pageAt b).nodes) (b : ℕ) :
    g.category b = f.category b := by
  unfold category FsmPage.getAvail
  rw [h]

theorem Forgets.of_nodes {f g : Fsm} (hg : g.Valid) (h : ∀ b, (g.pageAt b).nodes = (f.pageAt b).nodes) : f.Forgets g :=
  ⟨hg, fun b _ => .inl (category_congr h b)⟩

theorem Valid.pageAt_past {f : Fsm} (hf : f.Valid) {b : ℕ} (hb : f.nblocks ≤ b) : f.pageAt b = .new := by
  rw [pageAt, hf.past b hb]
  rfl

/-- What a look at the page `addr` for `minvalue` comes to. -/
structure Looked (f : Fsm) (addr : Addr) (minvalue : ℕ) (seen : Option ℕ × ℕ × Fsm) : Prop where
  valid : seen.2.2.Valid
  nodes : ∀ b, (seen.2.2.pageAt b).nodes = (f.pageAt b).nodes
  others : ∀ b, b ≠ physical addr → seen.2.2.pageAt b = f.pageAt b
  found : ∀ slot, seen.1 = some slot → slot < slotsPerPage ∧ minvalue ≤ (f.pageAt (physical addr)).getAvail slot ∧
    ((f.pageAt (physical addr)).nextSlot = 0 → ∀ t < slot, (f.pageAt (physical addr)).getAvail t < minvalue)
  promised : minvalue ≤ (f.pageAt (physical addr)).nodes 0 → seen.1.isSome

theorem look_looked {f : Fsm} (hf : f.Valid) (addr : Addr) {minvalue : ℕ} (hmin : 0 < minvalue) :
    f.Looked addr minvalue (f.look addr minvalue) := by
  unfold look
  split
  · rename_i p g hread
    obtain ⟨rfl, hwrote, -⟩ := page_eq_some hf hread
    have hp := hf.summed (physical addr)
    -- whatever slot is found, only the next slot of the page read changes
    have hput : ∀ n : ℤ, Wrote f addr { f.pageAt (physical addr) with nextSlot := n }
        (g.put addr { f.pageAt (physical addr) with nextSlot := n }) := fun n => hwrote.put hp
    have hrest : ∀ n : ℤ, (g.put addr { f.pageAt (physical addr) with nextSlot := n }).Valid ∧
        (∀ b, ((g.put addr { f.pageAt (physical addr) with nextSlot := n }).pageAt b).nodes = (f.pageAt b).nodes) ∧
        ∀ b, b ≠ physical addr →
          (g.put addr { f.pageAt (physical addr) with nextSlot := n }).pageAt b = f.pageAt b := by
      intro n
      refine ⟨(hput n).valid, ?_, ?_⟩
      · intro b
        rw [(hput n).pages]
        split
        · rw [‹b = _›]
        · rfl
      · intro b hb
        rw [(hput n).pages, if_neg hb]
    by_cases hroot : (f.pageAt (physical addr)).nodes 0 < minvalue
    · rw [FsmPage.searchAvail_none hroot]
      obtain ⟨hvalid, hnodes, hothers⟩ := hrest (f.pageAt (physical addr)).nextSlot
      exact ⟨hvalid, hnodes, hothers, fun _ h => absurd h (by simp), fun h => absurd h (by omega)⟩
    · obtain ⟨slot, hslot, hval, hdescent, hsearch⟩ := hp.searchAvail (Nat.le_of_not_lt hroot)
        (decide (addr.level = bottomLevel))
      rw [hsearch]
      obtain ⟨hvalid, hnodes, hothers⟩ := hrest (slot + if decide (addr.level = bottomLevel) then 1 else 0)
      refine ⟨hvalid, hnodes, hothers, ?_, fun _ => rfl⟩
      intro s hs
      obtain rfl : slot = s := Option.some.inj hs
      exact ⟨hslot, hval, fun hnext t ht => hp.descent_first hnext hdescent ht hslot⟩
  · rename_i hread
    have hpast := page_eq_none.mp hread
    refine ⟨hf, fun _ => rfl, fun _ _ => rfl, fun _ h => absurd h (by simp), ?_⟩
    rw [hf.pageAt_past hpast]
    intro h
    have h : minvalue ≤ 0 := h
    omega

/-- A slot set: its page alone changes, and a slot found then has enough. -/
theorem setAndSearch_spec {f : Fsm} (hf : f.Valid) (addr : Addr) {slot : ℕ} (hslot : slot < slotsPerPage)
    (value minvalue : ℕ) :
    ∃ p, f.Wrote addr p (f.setAndSearch addr slot value minvalue).2 ∧
      (∀ t, p.getAvail t = if t = slot then value else (f.pageAt (physical addr)).getAvail t) ∧
      ∀ s, (f.setAndSearch addr slot value minvalue).1 = some s → s < slotsPerPage ∧ minvalue ≤ p.getAvail s := by
  unfold setAndSearch
  split
  · rename_i hread
    exact absurd hread (by simp [page])
  · rename_i p g hread
    obtain ⟨rfl, hwrote, -⟩ := page_eq_some hf hread
    obtain ⟨hset, havail, -⟩ := (hf.summed (physical addr)).setAvail hslot value
    dsimp only
    split
    · by_cases hroot : ((f.pageAt (physical addr)).setAvail slot value).nodes 0 < minvalue
      · rw [FsmPage.searchAvail_none hroot]
        exact ⟨_, hwrote.put hset, havail, fun _ h => absurd h (by simp)⟩
      · obtain ⟨s, hs, hval, -, hsearch⟩ := hset.searchAvail (Nat.le_of_not_lt hroot)
          (decide (addr.level = bottomLevel))
        rw [hsearch]
        refine ⟨_, hwrote.put hset, havail, ?_⟩
        intro s' hs'
        obtain rfl : s = s' := Option.some.inj hs'
        exact ⟨hs, hval⟩
    · exact ⟨_, hwrote.put hset, havail, fun _ h => absurd h (by simp)⟩

theorem forgets_forget {f : Fsm} (hf : f.Valid) {addr : Addr} (haddr : addr.InTree) (hlevel : addr.level = 0)
    {slot : ℕ} (hslot : slot < slotsPerPage) : f.Forgets (f.forget addr slot) := by
  unfold forget
  split
  · rename_i p g hread
    obtain ⟨rfl, hwrote, -⟩ := page_eq_some hf hread
    obtain ⟨hset, havail, -⟩ := (hf.summed (physical addr)).setAvail hslot 0
    have hput := hwrote.put hset
    refine ⟨hput.valid, ?_⟩
    intro b hb
    rw [hput.category_bottom haddr hlevel havail hb hslot]
    split
    · exact .inr rfl
    · exact .inl rfl
  · exact .refl hf

theorem forgets_correct {f : Fsm} (hf : f.Valid) {addr : Addr} (haddr : addr.InTree) (hlevel : addr.level ≠ 0)
    {slot : ℕ} (hslot : slot < slotsPerPage) (value : ℕ) : f.Forgets (f.setAndSearch addr slot value 0).2 := by
  obtain ⟨p, hwrote, -, -⟩ := setAndSearch_spec hf addr hslot value 0
  exact ⟨hwrote.valid, fun b hb => .inl (hwrote.category_upper haddr hlevel hb)⟩

/-- What a block a search returns is: below the heap's end, and of a slot that has enough. -/
def Found (g : Fsm) (minvalue heapBlocks blkno : ℕ) : Prop :=
  blkno < heapBlocks ∧ ∃ b < blocksCovered, blkno = b % 2 ^ 32 ∧ minvalue ≤ g.category b

/-- A slot found on a bottom page is its block's. -/
theorem category_slot {f : Fsm} {addr : Addr} (haddr : addr.InTree) (hlevel : addr.level = 0) {slot : ℕ}
    (hslot : slot < slotsPerPage) :
    addr.logpageno * slotsPerPage + slot < blocksCovered ∧
      f.category (addr.logpageno * slotsPerPage + slot) = (f.pageAt (physical addr)).getAvail slot := by
  obtain ⟨-, -, hslots⟩ := FsmPage.sizes
  obtain ⟨hsq, hcov⟩ := covered_eq
  have haddr' : addr = { level := 0, logpageno := addr.logpageno } := by
    rw [← hlevel]
  constructor
  · obtain ⟨hl, -, -⟩ | ⟨hl, -, -⟩ | ⟨-, hn, -⟩ := haddr.physical
    · omega
    · omega
    · rw [hslots] at hslot ⊢
      omega
  · rw [category, location_mul_add hslot, ← haddr']

/-- A search's answer and the map it leaves: at most some blocks forgotten, and what it returns found there. -/
def Answers (f : Fsm) (minvalue heapBlocks : ℕ) (r : Option ℕ × Fsm) : Prop :=
  f.Forgets r.2 ∧ ∀ blkno, r.1 = some blkno → r.2.Found minvalue heapBlocks blkno

theorem Answers.of_none {f g : Fsm} (h : f.Forgets g) (minvalue heapBlocks : ℕ) :
    f.Answers minvalue heapBlocks (none, g) :=
  ⟨h, fun _ h => absurd h (by simp)⟩

theorem Answers.after {f g : Fsm} {minvalue heapBlocks : ℕ} {r : Option ℕ × Fsm} (hfg : f.Forgets g)
    (h : g.Answers minvalue heapBlocks r) : f.Answers minvalue heapBlocks r :=
  ⟨hfg.trans h.1, h.2⟩

theorem searchFrom_answers {minvalue heapBlocks : ℕ} (hmin : 0 < minvalue) (f : Fsm) (addr : Addr) (restarts : ℕ)
    (hf : f.Valid) (haddr : addr.InTree) :
    f.Answers minvalue heapBlocks (searchFrom minvalue heapBlocks f addr restarts) := by
  have hlooked : ∀ (f : Fsm) (addr : Addr), f.Valid → f.Looked addr minvalue (f.look addr minvalue) :=
    fun f addr hf => look_looked hf addr hmin
  fun_induction searchFrom minvalue heapBlocks f addr restarts with
  | case1 f addr restarts seen g hfound slot hbottom blkno hlt =>
    have hlook : f.Looked addr minvalue seen := hlooked f addr hf
    obtain ⟨hslot, hval, -⟩ := hlook.found slot (eq_some_getD hfound)
    refine ⟨.of_nodes hlook.valid hlook.nodes, ?_⟩
    intro blk hblk
    obtain rfl : blkno = blk := Option.some.inj hblk
    obtain ⟨hcov, hcat⟩ := category_slot (f := g) haddr hbottom hslot
    refine ⟨hlt, addr.logpageno * slotsPerPage + slot, hcov, rfl, ?_⟩
    rw [hcat, FsmPage.getAvail, hlook.nodes]
    exact hval
  | case2 f addr restarts seen g hfound slot hbottom blkno hpast h hover =>
    have hlook : f.Looked addr minvalue seen := hlooked f addr hf
    obtain ⟨hslot, -⟩ := hlook.found slot (eq_some_getD hfound)
    have hg : f.Forgets g := .of_nodes hlook.valid hlook.nodes
    exact .of_none (hg.trans (forgets_forget hlook.valid haddr hbottom hslot)) _ _
  | case3 f addr restarts seen g hfound slot hbottom blkno hpast h hover ih =>
    have hlook : f.Looked addr minvalue seen := hlooked f addr hf
    obtain ⟨hslot, -⟩ := hlook.found slot (eq_some_getD hfound)
    have hg : f.Forgets g := .of_nodes hlook.valid hlook.nodes
    have hh : g.Forgets h := forgets_forget hlook.valid haddr hbottom hslot
    exact (ih hh.valid inTree_root).after (hg.trans hh)
  | case4 f addr restarts seen g hfound slot hbottom ih =>
    have hlook : f.Looked addr minvalue seen := hlooked f addr hf
    obtain ⟨hslot, -⟩ := hlook.found slot (eq_some_getD hfound)
    exact (ih hlook.valid (inTree_child haddr hbottom hslot)).after (.of_nodes hlook.valid hlook.nodes)
  | case5 f addr restarts seen g hfound hroot =>
    have hlook : f.Looked addr minvalue seen := hlooked f addr hf
    exact .of_none (.of_nodes hlook.valid hlook.nodes) _ _
  | case6 f addr restarts seen g hfound hroot up upSlot hup h hover =>
    have hlook : f.Looked addr minvalue seen := hlooked f addr hf
    obtain ⟨hin, hlevel, hslot⟩ := inTree_parent haddr hroot
    rw [hup] at hin hlevel hslot
    have hg : f.Forgets g := .of_nodes hlook.valid hlook.nodes
    exact .of_none (hg.trans (forgets_correct hlook.valid hin hlevel hslot _)) _ _
  | case7 f addr restarts seen g hfound hroot up upSlot hup h hover ih =>
    have hlook : f.Looked addr minvalue seen := hlooked f addr hf
    obtain ⟨hin, hlevel, hslot⟩ := inTree_parent haddr hroot
    rw [hup] at hin hlevel hslot
    have hg : f.Forgets g := .of_nodes hlook.valid hlook.nodes
    have hh : g.Forgets h := forgets_correct hlook.valid hin hlevel hslot _
    exact (ih hh.valid inTree_root).after (hg.trans hh)

theorem search_answers {f : Fsm} (hf : f.Valid) {minvalue : ℕ} (hmin : 0 < minvalue) (heapBlocks : ℕ) :
    f.Answers minvalue heapBlocks (f.search minvalue heapBlocks) :=
  searchFrom_answers hmin f root 0 hf inTree_root

/-- A block recorded takes its category, and no other block changes. -/
theorem record_spec {f : Fsm} (hf : f.Valid) {heapBlk : ℕ} (hblk : heapBlk < blocksCovered) (avail minvalue : ℕ) :
    let r := f.setAndSearch (location heapBlk).1 (location heapBlk).2 (availToCat avail) minvalue
    r.2.Valid ∧
      (∀ b < blocksCovered, r.2.category b = if b = heapBlk then availToCat avail else f.category b) ∧
      ∀ s, r.1 = some s → s < slotsPerPage ∧
        minvalue ≤ r.2.category ((location heapBlk).1.logpageno * slotsPerPage + s) := by
  intro r
  obtain ⟨hin, hlevel, hslot⟩ := inTree_location hblk
  obtain ⟨p, hwrote, havail, hfound⟩ := setAndSearch_spec hf (location heapBlk).1 hslot (availToCat avail) minvalue
  have hblock : (location heapBlk).1.logpageno * slotsPerPage + (location heapBlk).2 = heapBlk := by
    show heapBlk / slotsPerPage * slotsPerPage + heapBlk % slotsPerPage = heapBlk
    rw [Nat.mul_comm]
    exact Nat.div_add_mod heapBlk slotsPerPage
  refine ⟨hwrote.valid, ?_, ?_⟩
  · intro b hb
    rw [hwrote.category_bottom hin hlevel havail hb hslot, hblock]
  · intro s hs
    obtain ⟨hslot', hval⟩ := hfound s hs
    refine ⟨hslot', ?_⟩
    rw [(category_slot hin hlevel hslot').2, hwrote.pages, if_pos rfl]
    exact hval

theorem Wrote.forgets_truncateAvail {f g : Fsm} (hf : f.Valid) {addr : Addr} {slot : ℕ}
    (h : f.Wrote addr ((f.pageAt (physical addr)).truncateAvail slot) g) : f.Forgets g := by
  refine ⟨h.valid, ?_⟩
  intro b hb
  obtain ⟨-, -, hslot⟩ := inTree_location hb
  unfold category
  rw [h.pages]
  split
  · rename_i hpage
    rw [((hf.summed (physical addr)).truncateAvail slot).2 _ hslot, hpage]
    split
    · exact .inr rfl
    · exact .inl rfl
  · exact .inl rfl

theorem forgets_drop {f : Fsm} (hf : f.Valid) (keep : ℕ) :
    f.Forgets { f with nblocks := keep, pages := fun b => if b < keep then f.pages b else none } := by
  have hpages : ∀ b, pageAt { f with nblocks := keep, pages := fun b => if b < keep then f.pages b else none } b =
      if b < keep then f.pageAt b else .new := by
    intro b
    show (if b < keep then f.pages b else none).getD .new = _
    split <;> rfl
  refine ⟨⟨?_, ?_⟩, ?_⟩
  · intro b
    rw [hpages]
    split
    · exact hf.summed b
    · exact FsmPage.summed_new
  · intro b hb
    exact if_neg (Nat.not_lt.mpr hb)
  · intro b hb
    unfold category
    rw [hpages]
    split
    · exact .inl rfl
    · exact .inr rfl

theorem forgets_clearFrom {f : Fsm} (hf : f.Valid) (addr : Addr) (slot : ℕ) : f.Forgets (f.clearFrom addr slot) := by
  unfold clearFrom
  split
  · split
    · rename_i p g hread
      obtain ⟨rfl, hwrote, -⟩ := page_eq_some hf hread
      exact (hwrote.put ((hf.summed (physical addr)).truncateAvail slot).1).forgets_truncateAvail hf
    · exact .refl hf
  · exact .refl hf

theorem forgets_truncate {f : Fsm} (hf : f.Valid) (nblocks : ℕ) : f.Forgets (f.truncate nblocks) := by
  have hclear := forgets_clearFrom hf (location nblocks).1 (location nblocks).2
  unfold truncate
  dsimp only
  generalize (if (location nblocks).2 > 0 then physical (location nblocks).1 + 1 else physical (location nblocks).1) =
    keep
  split
  · exact hclear.trans (forgets_drop hclear.valid _)
  · exact hclear

end Fsm

end Secantus.FreeSpace
