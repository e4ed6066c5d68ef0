import Umbra.Basic
import Umbra.Foundation.System

/-!
# Page checksums of a mapped relation

The checksum of a page mixes in a block number. `FlushBuffer` mixes in the logical one and the page
is then written wherever the mapping says. `pg_checksums` knows files only and mixes in the
physical one. `sendFile` of a base backup does not verify mapped forks.
-/

namespace Umbra.Checksum

open Foundation Function

/-- A page as its header and the words behind it. `body` is read at the words 5 to 2047. -/
structure Page where
  xlogid : UInt32
  xrecoff : UInt32
  pdChecksum : UInt16
  pdFlags : UInt16
  pdLower : UInt16
  pdUpper : UInt16
  pdSpecial : UInt16
  pdPagesizeVersion : UInt16
  body : Nat → UInt32

namespace Page

def zero : Page := ⟨0, 0, 0, 0, 0, 0, 0, 0, fun _ => 0⟩

def setChecksum (page : Page) (checksum : UInt16) : Page := { page with pdChecksum := checksum }

def pair (low high : UInt16) : UInt32 := low.toUInt32 + high.toUInt32 * 65536

def data (page : Page) : Nat → UInt32
  | 0 => page.xlogid
  | 1 => page.xrecoff
  | 2 => pair page.pdChecksum page.pdFlags
  | 3 => pair page.pdLower page.pdUpper
  | 4 => pair page.pdSpecial page.pdPagesizeVersion
  | i => page.body i

/-- `PageIsNew`. -/
def isNew (page : Page) : Bool := page.pdUpper = 0

/-- `PageGetLSN`. -/
def lsn (page : Page) : UInt64 := (page.xlogid.toUInt64 <<< 32) ||| page.xrecoff.toUInt64

def HeaderSane (page : Page) : Prop :=
  page.pdFlags ≤ 7 ∧ page.pdLower ≤ page.pdUpper ∧ page.pdUpper ≤ page.pdSpecial ∧
    page.pdSpecial ≤ 8192 ∧ page.pdSpecial % 8 = 0

def allZeros (page : Page) : Bool := (List.range 2048).all fun i => page.data i = 0

instance (page : Page) : Decidable page.HeaderSane := inferInstanceAs (Decidable (_ ∧ _))

end Page

/-! ### The checksum -/

def checksumBaseOffsets : List UInt32 :=
  [0x5B1F36E9, 0xB8525960, 0x02AB50AA, 0x1DE66D2A, 0x79FF467A, 0x9BB9F8A3, 0x217E7CD2, 0x83E13D2C,
   0xF8D4474F, 0xE39EB970, 0x42C6AE16, 0x993216FA, 0x7B093B5D, 0x98DAFF3C, 0xF718902A, 0x0B1C9CDB,
   0xE58F764B, 0x187636BC, 0x5D7B3BB1, 0xE73DE7DE, 0x92BEC979, 0xCCA6C0B2, 0x304A0979, 0x85AA43D4,
   0x783125BB, 0x6CA8EAA2, 0xE407EAC6, 0x4B5CFC3E, 0x9FBF8C76, 0x15CA20BE, 0xF2CA9FD3, 0x959BD756]

def checksumComp (checksum value : UInt32) : UInt32 :=
  let tmp := checksum ^^^ value
  (tmp * (16777619 : UInt32)) ^^^ (tmp >>> 17)

/-- One of the partial checksums of `pg_checksum_block`: column `j` of the page from the given
offset, then two rounds of zeroes. -/
def partialSum (data : Nat → UInt32) (offset : UInt32) (j : Nat) : UInt32 :=
  let sum := (List.range 64).foldl (fun sum i => checksumComp sum (data (32 * i + j))) offset
  checksumComp (checksumComp sum 0) 0

def pgChecksumBlock (data : Nat → UInt32) : UInt32 :=
  (checksumBaseOffsets.mapIdx fun j offset => partialSum data offset j).foldl (· ^^^ ·) 0

/-- `pg_checksum_page`. The stored checksum does not count. -/
def pgChecksumPage (page : Page) (blkno : UInt32) : UInt16 :=
  ((pgChecksumBlock (page.setChecksum 0).data ^^^ blkno) % 65535 + 1).toUInt16

/-- The block numbers leave the same remainder in the checksum of the page. -/
def SameResidue (page : Page) (a b : UInt32) : Prop :=
  let checksum := pgChecksumBlock (page.setChecksum 0).data
  (checksum ^^^ a) % 65535 = (checksum ^^^ b) % 65535

/-! ### The server -/

/-- `PageSetChecksum`; `enabled` says whether the cluster has data checksums. -/
def pageSetChecksum (enabled : Bool) (page : Page) (blkno : UInt32) : Page :=
  if page.isNew = true ∨ enabled = false then page
  else page.setChecksum (pgChecksumPage page blkno)

def PageIsVerified (enabled : Bool) (page : Page) (blkno : UInt32) : Prop :=
  (page.isNew = false ∧ page.HeaderSane ∧
    (enabled = true → pgChecksumPage page blkno = page.pdChecksum)) ∨ page.allZeros = true

instance (enabled : Bool) (page : Page) (blkno : UInt32) :
    Decidable (PageIsVerified enabled page blkno) := inferInstanceAs (Decidable (_ ∨ _))

/-! ### The verifiers -/

def relsegSize : Nat := 131072

def scanBlkno (segmentno blockno : Nat) : UInt32 := .ofNat (blockno + segmentno * relsegSize)

/-- `scan_file` with `PG_MODE_CHECK` from a block of the file on: the number of bad blocks. -/
def scanFileCheck (segmentno : Nat) : Nat → List Page → Nat
  | _, [] => 0
  | blockno, page :: rest =>
    let badblocks := scanFileCheck segmentno (blockno + 1) rest
    if page.isNew then badblocks
    else if pgChecksumPage page (scanBlkno segmentno blockno) ≠ page.pdChecksum then badblocks + 1
    else badblocks

/-- `scan_file` with `PG_MODE_ENABLE` from a block of the file on: the new contents. -/
def scanFileEnable (segmentno : Nat) : Nat → List Page → List Page
  | _, [] => []
  | blockno, page :: rest =>
    let csum := pgChecksumPage page (scanBlkno segmentno blockno)
    (if page.isNew = true ∨ page.pdChecksum = csum then page else page.setChecksum csum)
      :: scanFileEnable segmentno (blockno + 1) rest

/-- `verify_page_checksum` of a base backup that started at `startLsn`. -/
def verifyPageChecksum (enabled : Bool) (page : Page) (startLsn : UInt64) (blkno : UInt32) : Bool :=
  page.isNew || page.lsn ≥ startLsn || !enabled || page.pdChecksum = pgChecksumPage page blkno

inductive BackupFork
  | mapped (fork : ForkNumber)
  | init
  deriving DecidableEq

/-- The checksum failures of `sendFile` from a block of the file on. The first block of a segment
has number `segno * RELSEG_SIZE`. -/
def sendFileFailures (enabled : Bool) (fork : BackupFork) (segno : Nat) (startLsn : UInt64) :
    Nat → List Page → Nat
  | _, [] => 0
  | blockno, page :: rest =>
    let failures := sendFileFailures enabled fork segno startLsn (blockno + 1) rest
    if fork = .init ∧
        verifyPageChecksum enabled page startLsn (scanBlkno segno blockno) = false then
      failures + 1
    else failures

/-! ### Histories of a mapped fork -/

structure State where
  mapping : Nat → Option Nat
  nblocks : Nat
  page : Nat → Page
  /-- The logical block a page was written for. This and the next field record what has happened. -/
  owner : Nat → Option Nat
  placed : List (Nat × Nat)

inductive Event
  | map (l p : Nat)
  /-- `FlushBuffer` writes the page of a logical block through the mapping. -/
  | flush (l : Nat) (page : Page)
  /-- `FlushBuffer` writes it where it was at the start of the checkpoint. -/
  | flushOld (l p : Nat) (page : Page)
  | copy (l q : Nat)

namespace State

def init : State where
  mapping _ := none
  nblocks := 0
  page _ := .zero
  owner _ := none
  placed := []

def write (s : State) (l p : Nat) (page : Page) : State :=
  { s with
    nblocks := max s.nblocks (p + 1)
    page := update s.page p page
    owner := update s.owner p (some l) }

def segment (s : State) (segno : Nat) : List Page :=
  (List.range (min relsegSize (s.nblocks - segno * relsegSize))).map fun b =>
    s.page (b + segno * relsegSize)

def Free (s : State) (p : Nat) : Prop := ∀ lp ∈ s.placed, s.mapping lp.1 ≠ some p

instance (s : State) (p : Nat) : Decidable (s.Free p) :=
  inferInstanceAs (Decidable (∀ _ ∈ _, _))

end State

/-- The pages a server has in its buffers: initialized ones and pages of zeros. -/
def Page.WellFormed (page : Page) : Prop :=
  page.isNew = false ∧ page.HeaderSane ∨ page.allZeros = true

instance (page : Page) : Decidable page.WellFormed := inferInstanceAs (Decidable (_ ∨ _))

def machine (enabled : Bool) : System State Event where
  step s
    | .map l p =>
      if s.Free p then
        some { s with mapping := update s.mapping l (some p), placed := (l, p) :: s.placed }
      else none
    | .flush l page =>
      match s.mapping l with
      | some p =>
        if page.WellFormed then some (s.write l p (pageSetChecksum enabled page (.ofNat l)))
        else none
      | none => none
    | .flushOld l p page =>
      if (l, p) ∈ s.placed ∧ page.WellFormed then
        some (s.write l p (pageSetChecksum enabled page (.ofNat l)))
      else none
    | .copy l q =>
      match s.mapping l with
      | some p =>
        if s.owner p = some l ∧ s.Free q then some (s.write l q (s.page p)) else none
      | none => none

/-! ### One page -/

lemma Page.isNew_of_allZeros {page : Page} (h : page.allZeros = true) : page.isNew = true := by
  have hword : page.data 3 = 0 := by
    simpa using List.all_eq_true.mp h 3 (List.mem_range.mpr (by decide))
  have hlower : page.pdLower.toNat < 65536 := page.pdLower.toNat_lt
  have hupper : page.pdUpper.toNat < 65536 := page.pdUpper.toNat_lt
  have hsum := congrArg UInt32.toNat hword
  simp only [Page.data, Page.pair, UInt32.toNat_add, UInt16.toNat_toUInt32, UInt32.toNat_mul,
    UInt32.reduceToNat, Nat.reducePow, Nat.add_mod_mod, UInt32.toNat_zero] at hsum
  have hzero : page.pdUpper.toNat = 0 := by omega
  exact decide_eq_true (UInt16.toNat_inj.mp hzero)

lemma residue_add_one_inj {x y : UInt32} :
    (x % 65535 + 1).toUInt16 = (y % 65535 + 1).toUInt16 ↔ x % 65535 = y % 65535 := by
  refine ⟨fun h => ?_, fun h => by rw [h]⟩
  have h := congrArg UInt16.toNat h
  simp only [UInt32.toUInt16_add, UInt32.toUInt16_ofNat, UInt16.toNat_add, UInt32.toNat_toUInt16,
    UInt32.toNat_mod, UInt32.reduceToNat, Nat.reducePow, UInt16.reduceToNat,
    Nat.mod_add_mod] at h
  rw [← UInt32.toNat_inj, UInt32.toNat_mod, UInt32.toNat_mod]
  change x.toNat % 65535 = y.toNat % 65535
  omega

lemma pgChecksumPage_eq_iff {page a b} :
    pgChecksumPage page a = pgChecksumPage page b ↔ SameResidue page a b := by
  simp only [pgChecksumPage, SameResidue, residue_add_one_inj]

section SetChecksum

variable (page : Page) (checksum : UInt16) (blkno : UInt32)

@[simp] lemma pdChecksum_setChecksum : (page.setChecksum checksum).pdChecksum = checksum := rfl

@[simp] lemma isNew_setChecksum : (page.setChecksum checksum).isNew = page.isNew := rfl

@[simp] lemma headerSane_setChecksum :
    (page.setChecksum checksum).HeaderSane ↔ page.HeaderSane := Iff.rfl

@[simp] lemma pgChecksumPage_setChecksum :
    pgChecksumPage (page.setChecksum checksum) blkno = pgChecksumPage page blkno := rfl

end SetChecksum

lemma pageIsVerified_pageSetChecksum (enabled) {page : Page} (h : page.WellFormed) (blkno) :
    PageIsVerified enabled (pageSetChecksum enabled page blkno) blkno := by
  unfold pageSetChecksum
  split
  next hskip =>
    refine h.imp_left fun ⟨hnew, hsane⟩ => ⟨hnew, hsane, fun henabled => ?_⟩
    rcases hskip with hnew' | hdisabled
    · exact absurd (hnew.symm.trans hnew') nofun
    · exact absurd (hdisabled.symm.trans henabled) nofun
  next hset =>
    obtain ⟨hnew, -⟩ := not_or.mp hset
    have hnew := Bool.eq_false_iff.mpr hnew
    rcases h with ⟨-, hsane⟩ | hzeros
    · refine .inl ⟨(isNew_setChecksum ..).trans hnew, (headerSane_setChecksum ..).mpr hsane, ?_⟩
      intro
      rw [pgChecksumPage_setChecksum, pdChecksum_setChecksum]
    · exact absurd (hnew.symm.trans (Page.isNew_of_allZeros hzeros)) nofun

lemma PageIsVerified.pdChecksum {page blkno} (h : PageIsVerified true page blkno)
    (hnew : page.isNew = false) : pgChecksumPage page blkno = page.pdChecksum := by
  rcases h with ⟨-, -, hsum⟩ | hzeros
  · exact hsum rfl
  · exact absurd (hnew.symm.trans (Page.isNew_of_allZeros hzeros)) nofun

def enablePage (page : Page) (blkno : UInt32) : Page :=
  if page.isNew = true ∨ page.pdChecksum = pgChecksumPage page blkno then page
  else page.setChecksum (pgChecksumPage page blkno)

lemma pageIsVerified_enablePage_iff {enabled page l p} (h : PageIsVerified enabled page l)
    (hnew : page.isNew = false) :
    PageIsVerified true (enablePage page p) l ↔ SameResidue page l p := by
  have hstored : (enablePage page p).pdChecksum = pgChecksumPage page p := by
    unfold enablePage
    split
    next hkeep => exact hkeep.resolve_left (Bool.eq_false_iff.mp hnew)
    next => rw [pdChecksum_setChecksum]
  have hrest : (enablePage page p).isNew = false ∧
      ((enablePage page p).HeaderSane ↔ page.HeaderSane) ∧
      pgChecksumPage (enablePage page p) l = pgChecksumPage page l := by
    unfold enablePage
    split
    · exact ⟨hnew, Iff.rfl, rfl⟩
    · exact ⟨(isNew_setChecksum ..).trans hnew, headerSane_setChecksum ..,
        pgChecksumPage_setChecksum ..⟩
  rw [← pgChecksumPage_eq_iff]
  constructor
  · intro hv
    rw [← hrest.2.2, ← hstored]
    exact hv.pdChecksum hrest.1
  · intro hsum
    have hsane : page.HeaderSane := by
      rcases h with ⟨-, hsane, -⟩ | hzeros
      · exact hsane
      · exact absurd (hnew.symm.trans (Page.isNew_of_allZeros hzeros)) nofun
    refine .inl ⟨hrest.1, hrest.2.1.mpr hsane, fun _ => ?_⟩
    rw [hrest.2.2, hstored]
    exact hsum

/-! ### Files -/

variable {pages : List Page} {segmentno blockno : Nat}

lemma scanFileCheck_eq_zero_iff :
    scanFileCheck segmentno blockno pages = 0 ↔
      ∀ b page, pages[b]? = some page → page.isNew = false →
        pgChecksumPage page (scanBlkno segmentno (blockno + b)) = page.pdChecksum := by
  induction pages generalizing blockno with
  | nil => exact ⟨fun _ => nofun, fun _ => rfl⟩
  | cons head rest ih =>
    have hsplit : (∀ b page, (head :: rest)[b]? = some page → page.isNew = false →
          pgChecksumPage page (scanBlkno segmentno (blockno + b)) = page.pdChecksum) ↔
        (head.isNew = false → pgChecksumPage head (scanBlkno segmentno blockno) = head.pdChecksum) ∧
        scanFileCheck segmentno (blockno + 1) rest = 0 := by
      rw [ih]
      constructor
      · intro h
        refine ⟨h 0 head rfl, fun b page hb => ?_⟩
        rw [Nat.add_right_comm]
        exact h (b + 1) page hb
      · rintro ⟨hhead, hrest⟩ (_ | b) page hb
        · cases hb
          exact hhead
        · rw [← Nat.add_assoc, Nat.add_right_comm]
          exact hrest b page hb
    rw [hsplit]
    simp only [scanFileCheck]
    split
    next hnew => simp [hnew]
    next hnew =>
      split
      next hbad => simp [hnew, hbad]
      next hgood => simp [hnew, not_not.mp hgood]

lemma scanFileEnable_getElem? {b} :
    (scanFileEnable segmentno blockno pages)[b]? =
      pages[b]?.map fun page => enablePage page (scanBlkno segmentno (blockno + b)) := by
  induction pages generalizing blockno b with
  | nil => rfl
  | cons head rest ih =>
    cases b with
    | zero => rfl
    | succ =>
      rw [scanFileEnable, List.getElem?_cons_succ, List.getElem?_cons_succ, ih, Nat.add_right_comm]
      rfl

lemma sendFileFailures_mapped (enabled fork segno startLsn blockno pages) :
    sendFileFailures enabled (.mapped fork) segno startLsn blockno pages = 0 := by
  induction pages generalizing blockno with
  | nil => rfl
  | cons head rest ih =>
    exact ih _

/-! ### Runs -/

def Verified (enabled : Bool) (s : State) : Prop :=
  ∀ p, match s.owner p with
    | some l => PageIsVerified enabled (s.page p) (.ofNat l)
    | none => s.page p = .zero

namespace Verified

variable {enabled : Bool} {s t : State}

lemma write (h : Verified enabled s) {l page} (p) (hpage : PageIsVerified enabled page (.ofNat l)) :
    Verified enabled (s.write l p page) := by
  intro q
  rcases eq_or_ne q p with rfl | hne
  · simpa only [State.write, update_self] using hpage
  · simpa only [State.write, update_of_ne hne] using h q

lemma step {e} (h : Verified enabled s) (hstep : (machine enabled).step s e = some t) :
    Verified enabled t := by
  cases e with
  | map =>
    obtain ⟨-, rfl⟩ := guard_eq_some hstep
    exact h
  | flush =>
    simp only [machine] at hstep
    split at hstep
    · obtain ⟨hpage, rfl⟩ := guard_eq_some hstep
      exact h.write _ (pageIsVerified_pageSetChecksum enabled hpage _)
    · cases hstep
  | flushOld l p =>
    obtain ⟨⟨-, hpage⟩, rfl⟩ := guard_eq_some hstep
    exact h.write p (pageIsVerified_pageSetChecksum enabled hpage _)
  | copy l q =>
    simp only [machine] at hstep
    split at hstep
    next p hp =>
      obtain ⟨⟨howner, -⟩, rfl⟩ := guard_eq_some hstep
      have hpage := h p
      rw [howner] at hpage
      exact h.write q hpage
    next => cases hstep

lemma of_reachable (h : (machine enabled).Reachable .init s) : Verified enabled s :=
  h.invariant (fun _ => rfl) fun hs _ hstep => hs.step hstep

lemma owned (h : Verified enabled s) {l p} (howner : s.owner p = some l) :
    PageIsVerified enabled (s.page p) (.ofNat l) := by
  have hp := h p
  rwa [howner] at hp

lemma isNew (h : Verified enabled s) {p} (howner : s.owner p = none) : (s.page p).isNew = true := by
  have hp := h p
  rw [howner] at hp
  rw [hp]
  rfl

end Verified

/-- No verifier reports a page that the server wrote, and the server accepts what `pg_checksums
--enable` makes of it. -/
structure Agreed (enabled : Bool) (fork : ForkNumber) (s : State) : Prop where
  backup : ∀ segno startLsn,
    sendFileFailures enabled (.mapped fork) segno startLsn 0 (s.segment segno) = 0
  check : enabled = true → ∀ segno, scanFileCheck segno 0 (s.segment segno) = 0
  enable : ∀ segno b l page, s.owner (b + segno * relsegSize) = some l →
    (scanFileEnable segno 0 (s.segment segno))[b]? = some page → PageIsVerified true page (.ofNat l)

section Segments

variable {s : State} {segno b p : Nat} {page : Page}

lemma State.segment_getElem? (h : (s.segment segno)[b]? = some page) :
    b + segno * relsegSize < s.nblocks ∧ page = s.page (b + segno * relsegSize) := by
  simp only [State.segment, List.getElem?_map, Option.map_eq_some_iff] at h
  obtain ⟨b', hb', rfl⟩ := h
  obtain ⟨hlt, rfl⟩ := getElem?_eq_some_iff.mp hb'
  simp only [List.length_range] at hlt
  simp only [List.getElem_range, and_true]
  omega

lemma State.segment_of_lt (h : p < s.nblocks) :
    (s.segment (p / relsegSize))[p % relsegSize]? = some (s.page p) := by
  have hp : p % relsegSize + p / relsegSize * relsegSize = p := Nat.mod_add_div' ..
  have hlt : p % relsegSize < relsegSize := Nat.mod_lt _ (by decide)
  have hrange : p % relsegSize < min relsegSize (s.nblocks - p / relsegSize * relsegSize) := by
    omega
  simp only [State.segment, List.getElem?_map, List.getElem?_range hrange, Option.map_some, hp]

end Segments

/-- The verifiers agree with the server iff the physical and the logical number of every initialized
page leave the same remainder in its checksum. -/
theorem agreed_iff_of_reachable {enabled : Bool} {fork : ForkNumber} {s : State}
    (h : (machine enabled).Reachable .init s) :
    Agreed enabled fork s ↔ ∀ p l, p < s.nblocks → s.owner p = some l →
      (s.page p).isNew = false → SameResidue (s.page p) (.ofNat l) (.ofNat p) := by
  have hv := Verified.of_reachable h
  constructor
  · intro hagreed p l hlt howner hnew
    have hp : p % relsegSize + p / relsegSize * relsegSize = p := Nat.mod_add_div' ..
    rw [← pageIsVerified_enablePage_iff (hv.owned howner) hnew]
    refine hagreed.enable (p / relsegSize) (p % relsegSize) l _ (by rw [hp]; exact howner) ?_
    rw [scanFileEnable_getElem?, State.segment_of_lt hlt, Option.map_some, zero_add, scanBlkno, hp]
  · intro hsame
    refine ⟨fun _ _ => sendFileFailures_mapped .., ?_, ?_⟩
    · rintro rfl segno
      refine scanFileCheck_eq_zero_iff.mpr fun b page hb hnew => ?_
      obtain ⟨hlt, rfl⟩ := State.segment_getElem? hb
      cases howner : s.owner (b + segno * relsegSize) with
      | none => exact absurd (hnew.symm.trans (hv.isNew howner)) nofun
      | some l =>
        rw [zero_add, ← (hv.owned howner).pdChecksum hnew, eq_comm, pgChecksumPage_eq_iff]
        exact hsame _ l hlt howner hnew
    · intro segno b l page howner hpage
      rw [scanFileEnable_getElem?, Option.map_eq_some_iff] at hpage
      obtain ⟨old, hold, rfl⟩ := hpage
      obtain ⟨hlt, rfl⟩ := State.segment_getElem? hold
      rw [zero_add]
      cases hnew : (s.page (b + segno * relsegSize)).isNew with
      | false =>
        rw [pageIsVerified_enablePage_iff (hv.owned howner) hnew]
        exact hsame _ l hlt howner hnew
      | true =>
        rw [enablePage, if_pos (.inl hnew)]
        rcases hv.owned howner with ⟨hold, -⟩ | hzeros
        · exact absurd (hold.symm.trans hnew) nofun
        · exact .inr hzeros

def emptyPage : Page := ⟨0, 0, 0, 0, 24, 8192, 8192, 8196, fun _ => 0⟩

def bornInPlace : List Event := [.map 0 0, .flush 0 emptyPage]

theorem agreed_of_bornInPlace : Agreed true .main ((machine true).after .init bornInPlace) := by
  refine (agreed_iff_of_reachable (System.Reachable.of_isSome (by decide))).mpr ?_
  intro p l _ howner _
  change update (fun _ => none) 0 (some 0) p = some l at howner
  rcases eq_or_ne p 0 with rfl | hne
  · cases howner
    rfl
  · rw [update_of_ne hne] at howner
    cases howner

def remappedOnce : State :=
  (machine true).after .init (bornInPlace ++ [.map 0 1, .flush 0 emptyPage])

lemma emptyPage_not_sameResidue : ¬ SameResidue emptyPage 0 1 := by
  rw [← pgChecksumPage_eq_iff]
  decide +kernel

/-- `pg_checksums --check` reports the page that the server accepts, and the server rejects it after
`pg_checksums --enable`. -/
theorem remapped_page_rejected :
    ((machine true).run .init (bornInPlace ++ [.map 0 1, .flush 0 emptyPage])).isSome ∧
      remappedOnce.mapping 0 = some 1 ∧ PageIsVerified true (remappedOnce.page 1) 0 ∧
      scanFileCheck 0 0 (remappedOnce.segment 0) ≠ 0 ∧
      ∃ page, (scanFileEnable 0 0 (remappedOnce.segment 0))[1]? = some page ∧
        ¬ PageIsVerified true page 0 := by
  have hpage : remappedOnce.page 1 = emptyPage.setChecksum (pgChecksumPage emptyPage 0) := rfl
  have hsegment : (remappedOnce.segment 0)[1]? = some (remappedOnce.page 1) := rfl
  have hnew : (remappedOnce.page 1).isNew = false := rfl
  have hverified : PageIsVerified true (remappedOnce.page 1) 0 :=
    @pageIsVerified_pageSetChecksum true emptyPage (.inl (by decide)) 0
  have hsame : ¬ SameResidue (remappedOnce.page 1) 0 1 := by
    rw [← pgChecksumPage_eq_iff, hpage, pgChecksumPage_setChecksum, pgChecksumPage_setChecksum,
      pgChecksumPage_eq_iff]
    exact emptyPage_not_sameResidue
  refine ⟨by decide, rfl, hverified, fun hzero => hsame ?_, enablePage (remappedOnce.page 1) 1, ?_,
    ?_⟩
  · rw [← pgChecksumPage_eq_iff, hverified.pdChecksum hnew]
    exact (scanFileCheck_eq_zero_iff.mp hzero 1 _ hsegment hnew).symm
  · rfl
  · rw [pageIsVerified_enablePage_iff hverified hnew]
    exact hsame

end Umbra.Checksum
