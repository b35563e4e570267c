import Crabos.Fs.FileRead

/-!
# The boot loader (`kernel/loader/fat.asm`, `kernel/loader/stage1.asm`)

The FAT routines of the loader, register by register. The first sector of the
partition is kept in memory, and the fields of its parameter block are read from
there. A cluster goes to a buffer below the stack. The loader does not look at
its contents, so of such a read the request is kept, and whether the data gets
to the stack.
-/
namespace Crabos.Loader

open Crabos.Disk Crabos.Fat16 Crabos.Linked

/-- What is asked from the disk for one cluster of a file: its own sectors, and
the sector of the FAT with its entry. -/
structure Visit where
  cluster : Nat
  lba : Nat
  count : Nat
  fatLba : Nat
  deriving DecidableEq, Repr

/-- The variables at `fatctx`. -/
structure Fatctx where
  currentCluster : BitVec 16
  firstDataSector : BitVec 32
  firstFatSector : BitVec 32
  mbr : Sector

namespace Fatctx

variable (ctx : Fatctx)

def sectorsPerCluster : BitVec 8 := (byte ctx.mbr 0x0d).toBitVec

def rootDirEntries : BitVec 16 := (word ctx.mbr 0x11).toBitVec

end Fatctx

/-- `mov` to the lower half of a register. -/
def setLow (r : BitVec 32) (v : BitVec 16) : BitVec 32 := r.extractLsb' 16 16 ++ v

/-- `mul`: the halves of the product go to `DX` and `AX`. -/
def mul (ax v : BitVec 16) : BitVec 16 × BitVec 16 :=
  let product := ax.setWidth 32 * v.setWidth 32
  (product.extractLsb' 16 16, product.setWidth 16)

/-- `fat_init`, with what was in `EDX` before. -/
def fatInit (disk : Nat → Sector) (lbaFirst edx : BitVec 32) (start : BitVec 16) : Fatctx :=
  let mbr := disk lbaFirst.toNat
  let eax := (word mbr 0x0e).toBitVec.setWidth 32
  let firstFatSector := eax + lbaFirst
  let ax := (byte mbr 0x10).toBitVec.setWidth 16
  let (dx, ax) := mul ax (word mbr 0x16).toBitVec
  let edx := setLow edx dx
  let edx := edx <<< 16
  let edx := setLow edx ax
  let edx := edx + firstFatSector
  ⟨start, edx, firstFatSector, mbr⟩

/-- `read_buffer` -/
def readBuffer : Nat := 0x2000

/-- The stack pointer of stage 0. -/
def stackTop : Nat := 0x7c00

/-- During a read the return addresses of two calls and the six bytes of `int 0x13` are
on the stack. -/
def stackInUse : Nat := 2 + 2 + 6

/-- What `fat_read_next_cluster` asks from the disk, and the variables that it leaves. -/
def clusterRequests (disk : Nat → Sector) (ctx : Fatctx) : Visit × Fatctx :=
  let ax := ctx.currentCluster - 2
  let dx := ctx.sectorsPerCluster.setWidth 16
  let (dx, ax) := mul ax dx
  let lbalo := dx ++ ax
  let eax := ctx.rootDirEntries.setWidth 32
  let eax := eax >>> 4
  let eax := eax + ctx.firstDataSector
  let lbalo := lbalo + eax
  let eax := ctx.sectorsPerCluster.setWidth 32
  let count : BitVec 16 := eax.setWidth 16
  -- the sector of the FAT: the upper byte of the cluster number
  let eax := (ctx.currentCluster.extractLsb' 8 8).setWidth 32
  let fatLba := eax + ctx.firstFatSector
  let fatSector := disk fatLba.toNat
  let bx := (ctx.currentCluster.extractLsb' 0 8).setWidth 16
  let bx := bx <<< 1
  let ax := (word fatSector bx.toNat).toBitVec
  (⟨ctx.currentCluster.toNat, lbalo.toNat, count.toNat, fatLba.toNat⟩,
    { ctx with currentCluster := ax })

/-- `fat_read_next_cluster`. The data of a large cluster goes over the stack in use (and then
over the loader itself), and the code does not return: `none`. -/
def fatReadNextCluster (disk : Nat → Sector) (ctx : Fatctx) : Option (Visit × Fatctx) :=
  if readBuffer + SECTOR_SIZE * (clusterRequests disk ctx).1.count ≤ stackTop - stackInUse then
    some (clusterRequests disk ctx)
  else none

/-- `cluster_read_loop`: the number is compared after the first read. -/
def clusterReadLoop (disk : Nat → Sector) : Nat → Fatctx → Option (List Visit)
  | 0, _ => none
  | fuel + 1, ctx =>
    (fatReadNextCluster disk ctx).bind fun (visit, ctx) =>
      if ctx.currentCluster < 0xfff7#16 then (clusterReadLoop disk fuel ctx).map (visit :: ·)
      else some [visit]

/-- The clusters as the kernel walks them with `first_cluster_sector` and
`next_cluster`, and how the walk ends. -/
def kernelWalk (fs : Filesystem) : Nat → Nat → Nat → Option (List Visit × Io Unit)
  | 0, _, _ => none
  | fuel + 1, request, cluster =>
    match fs.bpb.firstClusterSector cluster with
    | .error e => some ([], .error e)
    | .ok first =>
      let visit : Visit := ⟨cluster, first + fs.part.lba, fs.bpb.spc, fs.fatSector cluster + fs.part.lba⟩
      match fs.nextCluster request cluster with
      | .error e => some ([visit], .error e)
      | .ok none => some ([visit], .ok ())
      | .ok (some next) =>
        (kernelWalk fs fuel (request + 1) next).map fun (visits, r) => (visit :: visits, r)

/-- The file system that the kernel finds on the partition. -/
def mounted (drive : IdeDrive) (lbaFirst : BitVec 32) (sectors : Nat) (alloc : Nat → Bool) :
    Filesystem where
  part := ⟨drive, lbaFirst.toNat, sectors⟩
  bpb := BiosParameterBlock.ofSector (drive.sector lbaFirst.toNat)
  alloc := alloc

/-! Registers as numbers. -/

theorem append_toNat (hi lo : BitVec 16) : (hi ++ lo).toNat = hi.toNat * 65536 + lo.toNat := by
  have hlo := lo.isLt
  rw [BitVec.toNat_append, ← Nat.shiftLeft_add_eq_or_of_lt hlo, Nat.shiftLeft_eq]

theorem mul_toNat (ax v : BitVec 16) : ((mul ax v).1 ++ (mul ax v).2).toNat = ax.toNat * v.toNat := by
  have hlt : ax.toNat * v.toNat < 2 ^ 32 := by
    have hmul := Nat.mul_lt_mul'' ax.isLt v.isLt
    rwa [← Nat.pow_add] at hmul
  have hprod : (ax.setWidth 32 * v.setWidth 32).toNat = ax.toNat * v.toNat := by
    rw [BitVec.toNat_mul, BitVec.toNat_setWidth_of_le (by decide),
      BitVec.toNat_setWidth_of_le (by decide), Nat.mod_eq_of_lt hlt]
  rw [append_toNat]
  simp only [mul, BitVec.extractLsb'_toNat, BitVec.toNat_setWidth, hprod]
  omega

theorem setLow_shift (edx : BitVec 32) (dx ax : BitVec 16) :
    setLow (setLow edx dx <<< 16) ax = dx ++ ax := by
  have hdx := dx.isLt
  refine BitVec.eq_of_toNat_eq ?_
  rw [setLow, append_toNat, append_toNat, BitVec.extractLsb'_toNat, BitVec.toNat_shiftLeft, setLow,
    append_toNat]
  simp only [Nat.shiftLeft_eq, Nat.shiftRight_eq_div_pow]
  omega

/-- The variables are those of the file system. Sums may have wrapped around. -/
structure Ready (fs : Filesystem) (ctx : Fatctx) : Prop where
  block : fs.bpb = BiosParameterBlock.ofSector ctx.mbr
  fat : ctx.firstFatSector.toNat = (fs.bpb.firstFatSector + fs.part.lba) % 2 ^ 32
  data : ctx.firstDataSector.toNat = (fs.bpb.firstRootDirSector + fs.part.lba) % 2 ^ 32

theorem fatInit_ready (drive : IdeDrive) (lbaFirst edx : BitVec 32) (start : BitVec 16)
    (sectors : Nat) (alloc : Nat → Bool) :
    Ready (mounted drive lbaFirst sectors alloc) (fatInit drive.sector lbaFirst edx start) := by
  have hfat : (fatInit drive.sector lbaFirst edx start).firstFatSector.toNat =
      ((mounted drive lbaFirst sectors alloc).bpb.firstFatSector + lbaFirst.toNat) % 2 ^ 32 := by
    change (BitVec.setWidth 32 (word (drive.sector lbaFirst.toNat) 0x0e).toBitVec + lbaFirst).toNat = _
    rw [BitVec.toNat_add, BitVec.toNat_setWidth_of_le (by decide)]
    rfl
  refine ⟨rfl, hfat, ?_⟩
  have hdata : (fatInit drive.sector lbaFirst edx start).firstDataSector =
      (mul ((byte (drive.sector lbaFirst.toNat) 0x10).toBitVec.setWidth 16)
          (word (drive.sector lbaFirst.toNat) 0x16).toBitVec).1 ++
        (mul ((byte (drive.sector lbaFirst.toNat) 0x10).toBitVec.setWidth 16)
          (word (drive.sector lbaFirst.toNat) 0x16).toBitVec).2 +
      (fatInit drive.sector lbaFirst edx start).firstFatSector :=
    congrArg (· + _) (setLow_shift edx _ _)
  rw [hdata, BitVec.toNat_add, mul_toNat, BitVec.toNat_setWidth_of_le (by decide), hfat]
  have hroot : (mounted drive lbaFirst sectors alloc).bpb.firstRootDirSector =
      (mounted drive lbaFirst sectors alloc).bpb.firstFatSector +
        (byte (drive.sector lbaFirst.toNat) 0x10).toBitVec.toNat *
          (word (drive.sector lbaFirst.toNat) 0x16).toBitVec.toNat := rfl
  rw [hroot]
  change _ = (_ + lbaFirst.toNat) % 2 ^ 32
  omega

section visit

variable {fs : Filesystem} {ctx : Fatctx} (h : Ready fs ctx)

include h

theorem sectorsPerCluster_toNat : ctx.sectorsPerCluster.toNat = fs.bpb.spc := by
  rw [h.block]
  rfl

theorem rootDirEntries_toNat : ctx.rootDirEntries.toNat / 16 = fs.bpb.rootDirSectorCount := by
  rw [h.block, BiosParameterBlock.rootDirSectorCount]
  change _ = ctx.rootDirEntries.toNat * 32 / 512
  omega

theorem visit_lba (disk : Nat → Sector) (h₂ : 2 ≤ ctx.currentCluster.toNat)
    (hlt : fs.dataSector ctx.currentCluster.toNat + fs.part.lba < 2 ^ 32) :
    (clusterRequests disk ctx).1.lba = fs.dataSector ctx.currentCluster.toNat + fs.part.lba := by
  change ((mul (ctx.currentCluster - 2) (ctx.sectorsPerCluster.setWidth 16)).1 ++
    (mul (ctx.currentCluster - 2) (ctx.sectorsPerCluster.setWidth 16)).2 +
      (_ + ctx.firstDataSector)).toNat = _
  have hsub : (ctx.currentCluster - 2).toNat = ctx.currentCluster.toNat - 2 := by
    have := ctx.currentCluster.isLt
    rw [BitVec.toNat_sub]
    change (2 ^ 16 - 2 + ctx.currentCluster.toNat) % 2 ^ 16 = _
    omega
  rw [BitVec.toNat_add, mul_toNat, hsub, BitVec.toNat_setWidth_of_le (by decide),
    sectorsPerCluster_toNat h, BitVec.toNat_add, BitVec.toNat_ushiftRight,
    BitVec.toNat_setWidth_of_le (by decide), Nat.shiftRight_eq_div_pow, rootDirEntries_toNat h, h.data]
  rw [Filesystem.dataSector, BiosParameterBlock.clustersBase] at hlt ⊢
  omega

theorem visit_count (disk : Nat → Sector) : (clusterRequests disk ctx).1.count = fs.bpb.spc := by
  change ((ctx.sectorsPerCluster.setWidth 32).setWidth 16).toNat = _
  have hlt := ctx.sectorsPerCluster.isLt
  rw [BitVec.toNat_setWidth, BitVec.toNat_setWidth_of_le (by decide), sectorsPerCluster_toNat h]
  rw [sectorsPerCluster_toNat h] at hlt
  omega

theorem visit_fatLba (disk : Nat → Sector)
    (hlt : fs.fatSector ctx.currentCluster.toNat + fs.part.lba < 2 ^ 32) :
    (clusterRequests disk ctx).1.fatLba =
      fs.fatSector ctx.currentCluster.toNat + fs.part.lba := by
  have hc := ctx.currentCluster.isLt
  change ((ctx.currentCluster.extractLsb' 8 8).setWidth 32 + ctx.firstFatSector).toNat = _
  rw [BitVec.toNat_add, BitVec.toNat_setWidth_of_le (by decide), BitVec.extractLsb'_toNat, h.fat,
    Nat.shiftRight_eq_div_pow]
  rw [Filesystem.fatSector] at hlt ⊢
  simp only [FAT_ENTRY_SIZE, SECTOR_SIZE] at hlt ⊢
  omega

/-- The next cluster is what the FAT says. -/
theorem next_toNat (disk : Nat → Sector) (hdisk : disk = fs.part.drive.sector)
    (hlt : fs.fatSector ctx.currentCluster.toNat + fs.part.lba < 2 ^ 32) :
    (clusterRequests disk ctx).2.currentCluster.toNat = fs.fatEntry ctx.currentCluster.toNat := by
  have hc := ctx.currentCluster.isLt
  have hlba := visit_fatLba h disk hlt
  have hbx : (((ctx.currentCluster.extractLsb' 0 8).setWidth 16) <<< 1).toNat =
      ctx.currentCluster.toNat * FAT_ENTRY_SIZE % SECTOR_SIZE := by
    rw [BitVec.toNat_shiftLeft, BitVec.toNat_setWidth_of_le (by decide), BitVec.extractLsb'_toNat]
    simp only [FAT_ENTRY_SIZE, SECTOR_SIZE, Nat.shiftLeft_eq, Nat.shiftRight_zero]
    omega
  change (word (disk (clusterRequests disk ctx).1.fatLba) _).toBitVec.toNat = _
  rw [hlba, hbx, hdisk]
  rfl

theorem next_ready (disk : Nat → Sector) : Ready fs (clusterRequests disk ctx).2 :=
  ⟨h.block, h.fat, h.data⟩

end visit

/-- A cluster and the addresses for it, without a wrap around. -/
structure Addressed (fs : Filesystem) (cluster : Nat) : Prop where
  valid : 2 ≤ cluster ∧ cluster < fs.maxCluster
  data : fs.dataSector cluster + fs.part.lba < 2 ^ 32
  fat : fs.fatSector cluster + fs.part.lba < 2 ^ 32

def visitOf (fs : Filesystem) (cluster : Nat) : Visit :=
  ⟨cluster, fs.dataSector cluster + fs.part.lba, fs.bpb.spc, fs.fatSector cluster + fs.part.lba⟩

theorem clusterRequests_visit {fs : Filesystem} {ctx : Fatctx} (h : Ready fs ctx)
    (disk : Nat → Sector) (ha : Addressed fs ctx.currentCluster.toNat) :
    (clusterRequests disk ctx).1 = visitOf fs ctx.currentCluster.toNat := by
  have hlba := visit_lba h disk ha.valid.1 ha.data
  have hcount := visit_count h disk
  have hfat := visit_fatLba h disk ha.fat
  rw [visitOf, ← hlba, ← hcount, ← hfat]
  rfl

/-- The largest clusters that end before the stack. -/
def MAX_SECTORS_PER_CLUSTER : Nat := 45

theorem fatReadNextCluster_eq {fs : Filesystem} {ctx : Fatctx} (h : Ready fs ctx)
    (disk : Nat → Sector) :
    fatReadNextCluster disk ctx =
      if fs.bpb.spc ≤ MAX_SECTORS_PER_CLUSTER then some (clusterRequests disk ctx) else none := by
  rw [fatReadNextCluster, visit_count h]
  simp only [readBuffer, SECTOR_SIZE, stackTop, stackInUse, MAX_SECTORS_PER_CLUSTER]
  exact if_congr (by omega) rfl rfl

/-- Larger clusters are not loaded, whatever is on the disk. -/
theorem clusterReadLoop_large {fs : Filesystem} {ctx : Fatctx} (h : Ready fs ctx)
    (hlarge : MAX_SECTORS_PER_CLUSTER < fs.bpb.spc) (disk : Nat → Sector) (fuel : Nat) :
    clusterReadLoop disk fuel ctx = none := by
  cases fuel with
  | zero => rfl
  | succ fuel => rw [clusterReadLoop, fatReadNextCluster_eq h, if_neg (by omega), Option.bind_none]

section walks

variable {fs : Filesystem}

theorem kernelWalk_step (he : fs.part.ErrorFree) {c : Nat}
    (ha : Addressed fs c) (hr : fs.part.InReach (fs.fatSector c)) (fuel request : Nat) :
    kernelWalk fs (fuel + 1) request c =
      if 0xfff8 ≤ fs.fatEntry c then some ([visitOf fs c], .ok ())
      else if fs.fatEntry c = 0xfff7 then some ([visitOf fs c], .error (.panic .badCluster))
      else (kernelWalk fs fuel (request + 1) (fs.fatEntry c)).map
        fun (visits, r) => (visitOf fs c :: visits, r) := by
  have hnext := nextCluster_inReach ha.valid.2 hr request
  rw [he request] at hnext
  rw [kernelWalk, firstClusterSector_ok ha.valid.1]
  by_cases hend : 0xfff8 ≤ fs.fatEntry c
  · rw [if_pos hend] at hnext ⊢
    simp only [hnext]
    rfl
  · by_cases hbad : fs.fatEntry c = 0xfff7
    · rw [if_neg hend, if_pos hbad] at hnext ⊢
      simp only [hnext]
      rfl
    · rw [if_neg hend, if_neg hbad] at hnext ⊢
      simp only [hnext]
      rfl

theorem clusterReadLoop_step {ctx : Fatctx} (h : Ready fs ctx)
    (hsmall : fs.bpb.spc ≤ MAX_SECTORS_PER_CLUSTER) (ha : Addressed fs ctx.currentCluster.toNat)
    (fuel : Nat) :
    clusterReadLoop fs.part.drive.sector (fuel + 1) ctx =
      if fs.fatEntry ctx.currentCluster.toNat < 0xfff7 then
        (clusterReadLoop fs.part.drive.sector fuel
          (clusterRequests fs.part.drive.sector ctx).2).map (visitOf fs ctx.currentCluster.toNat :: ·)
      else some [visitOf fs ctx.currentCluster.toNat] := by
  have hvisit := clusterRequests_visit h fs.part.drive.sector ha
  have hnext := next_toNat h fs.part.drive.sector rfl ha.fat
  rw [clusterReadLoop, fatReadNextCluster_eq h, if_pos hsmall, Option.bind_some]
  simp only [hvisit, BitVec.lt_def, hnext]
  rfl

/-- What both walks do from a cluster on. -/
structure Agree (fs : Filesystem) (ctx : Fatctx) (cs : List Nat) (visits : List Visit)
    (r : Io Unit) : Prop where
  loader : ∀ fuel, cs.length ≤ fuel → clusterReadLoop fs.part.drive.sector fuel ctx = some visits
  kernel : ∀ fuel, cs.length ≤ fuel → ∀ request,
    kernelWalk fs fuel request ctx.currentCluster.toNat = some (visits, r)
  same : visits = (visits.map Visit.cluster).map (visitOf fs)
  all : fs.NoBad cs → visits.map Visit.cluster = cs ∧ r = .ok ()

theorem fuel_succ {c fuel : Nat} {cs : List Nat} (h : (c :: cs).length ≤ fuel) :
    ∃ n, fuel = n + 1 ∧ cs.length ≤ n := by
  rw [List.length_cons] at h
  exact ⟨fuel - 1, by omega, by omega⟩

theorem agree_last {ctx : Fatctx} {cs : List Nat} {c : Nat} {r : Io Unit} (h : Ready fs ctx)
    (hsmall : fs.bpb.spc ≤ MAX_SECTORS_PER_CLUSTER) (hc : ctx.currentCluster.toNat = c) (ha : Addressed fs c) (hend : ¬ fs.fatEntry c < 0xfff7)
    (hk : ∀ fuel request, kernelWalk fs (fuel + 1) request c = some ([visitOf fs c], r))
    (hall : fs.NoBad (c :: cs) → cs = [] ∧ r = .ok ()) :
    Agree fs ctx (c :: cs) [visitOf fs c] r := by
  subst hc
  refine ⟨fun fuel hf => ?_, fun fuel hf request => ?_, rfl, fun hgood => ?_⟩
  · obtain ⟨fuel, rfl, -⟩ := fuel_succ hf
    rw [clusterReadLoop_step h hsmall ha, if_neg hend]
  · obtain ⟨fuel, rfl, -⟩ := fuel_succ hf
    exact hk fuel request
  · obtain ⟨rfl, rfl⟩ := hall hgood
    exact ⟨rfl, rfl⟩

theorem walks_from (he : fs.part.ErrorFree) (hsmall : fs.bpb.spc ≤ MAX_SECTORS_PER_CLUSTER) {ctx : Fatctx} {cs : List Nat} (h : Ready fs ctx)
    (hchain : Chain fs.link (some ctx.currentCluster.toNat) cs)
    (haddr : ∀ c ∈ cs, Addressed fs c)
    (hreach : ∀ c ∈ cs, fs.part.InReach (fs.fatSector c)) :
    ∃ visits r, Agree fs ctx cs visits r := by
  induction cs generalizing ctx with
  | nil => cases hchain
  | cons c cs ih =>
    obtain ⟨hc, hchain⟩ := hchain
    have hc : ctx.currentCluster.toNat = c := Option.some.inj hc
    have ha := haddr c List.mem_cons_self
    have hstep := kernelWalk_step he ha (hreach c List.mem_cons_self)
    by_cases hend : 0xfff8 ≤ fs.fatEntry c
    · rw [Filesystem.link, if_pos hend] at hchain
      refine ⟨_, _, agree_last h hsmall hc ha (by omega) (r := .ok ()) (fun fuel request => ?_) fun _ => ?_⟩
      · rw [hstep, if_pos hend]
      · cases cs with
        | nil => exact ⟨rfl, rfl⟩
        | cons d cs => cases hchain.1
    · by_cases hbad : fs.fatEntry c = 0xfff7
      · refine ⟨_, _, agree_last h hsmall hc ha (by omega) (r := .error (.panic .badCluster))
          (fun fuel request => ?_) fun hgood => absurd hbad (hgood c List.mem_cons_self)⟩
        rw [hstep, if_neg hend, if_pos hbad]
      · have hnext := next_toNat h fs.part.drive.sector rfl (hc ▸ ha.fat)
        rw [hc] at hnext
        rw [Filesystem.link, if_neg hend, ← hnext] at hchain
        obtain ⟨visits, r, hagree⟩ := ih (next_ready h fs.part.drive.sector) hchain
          (fun d hd => haddr d (List.mem_cons_of_mem _ hd))
          (fun d hd => hreach d (List.mem_cons_of_mem _ hd))
        refine ⟨visitOf fs c :: visits, r, fun fuel hf => ?_, fun fuel hf request => ?_, ?_,
          fun hgood => ?_⟩
        · obtain ⟨fuel, rfl, hn⟩ := fuel_succ hf
          rw [clusterReadLoop_step h hsmall (hc ▸ ha), hc, if_pos (by omega),
            hagree.loader fuel hn]
          rfl
        · obtain ⟨fuel, rfl, hn⟩ := fuel_succ hf
          have hrest := hagree.kernel fuel hn (request + 1)
          rw [hnext] at hrest
          rw [hc, hstep, if_neg hend, if_neg hbad, hrest]
          rfl
        · rw [List.map_cons, List.map_cons, ← hagree.same]
          rfl
        · obtain ⟨hvisits, hr⟩ := hagree.all fun d hd => hgood d (List.mem_cons_of_mem _ hd)
          exact ⟨congrArg (c :: ·) hvisits, hr⟩

end walks

/-- With clusters that end before the stack of the loader, the loader and the kernel
ask for the same sectors of a file, cluster by cluster, and of the FAT. Where the chain has the mark of a bad cluster both
stop, the kernel with a panic. -/
theorem walks_agree (drive : IdeDrive) (lbaFirst edx : BitVec 32) (sectors : Nat)
    (alloc : Nat → Bool) (start : BitVec 16) (cs : List Nat)
    (hsmall : (mounted drive lbaFirst sectors alloc).bpb.spc ≤ MAX_SECTORS_PER_CLUSTER)
    (hchain : Chain (mounted drive lbaFirst sectors alloc).link (some start.toNat) cs)
    (haddr : ∀ c ∈ cs, Addressed (mounted drive lbaFirst sectors alloc) c)
    (he : (mounted drive lbaFirst sectors alloc).part.ErrorFree)
    (hreach : ∀ c ∈ cs, (mounted drive lbaFirst sectors alloc).part.InReach
      ((mounted drive lbaFirst sectors alloc).fatSector c)) :
    ∃ visits r, Agree (mounted drive lbaFirst sectors alloc)
      (fatInit drive.sector lbaFirst edx start) cs visits r :=
  walks_from he hsmall (fatInit_ready drive lbaFirst edx start sectors alloc) hchain haddr hreach

/-- A drive with one partition from `lba` on: one FAT of one sector, in which
cluster `2` is linked to `3`. -/
def bootDrive (spc : UInt8) (lba : Nat) : IdeDrive where
  sector x :=
    if x = lba then
      sectorOf (List.replicate 0x0d 0 ++ [spc, 1, 0, 1, 0, 0, 0, 0, 0, 1]) 0
    else sectorOf [0xff, 0xff, 0xff, 0xff, 3, 0] 0xff
  fault _ := none

def bootFs (spc : UInt8) (lba : BitVec 32) : Filesystem :=
  mounted (bootDrive spc lba.toNat) lba 200 fun _ => true

theorem walks_agree_boot :
    (∃ visits r, Agree (bootFs 1 64) (fatInit (bootDrive 1 64).sector 64 0 2) [2, 3] visits r) ∧
      clusterReadLoop (bootDrive 1 64).sector 2 (fatInit (bootDrive 1 64).sector 64 0 2) =
        some [⟨2, 66, 1, 65⟩, ⟨3, 67, 1, 65⟩] := by
  refine ⟨walks_agree (bootDrive 1 64) 64 0 200 (fun _ => true) 2 [2, 3] ?_ ⟨rfl, ?_, ?_⟩ ?_
    (fun _ => rfl) ?_, ?_⟩
  · decide +kernel
  · decide +kernel
  · rw [chain_nil]
    decide +kernel
  · intro c hc
    rcases List.mem_pair.mp hc with rfl | rfl
    · exact ⟨by decide +kernel, by decide +kernel, by decide +kernel⟩
    · exact ⟨by decide +kernel, by decide +kernel, by decide +kernel⟩
  · decide +kernel
  · decide +kernel

/-- The partition starts behind the last sector that the kernel can read. And with 64
sectors a cluster is read over the stack of the loader, while the kernel walks both. -/
theorem kernel_reaches_less :
    (Chain (bootFs 1 0x1000000).link (some 2) [2, 3] ∧
      (∀ c ∈ [2, 3], Addressed (bootFs 1 0x1000000) c) ∧
      (clusterReadLoop (bootDrive 1 0x1000000).sector 2
        (fatInit (bootDrive 1 0x1000000).sector 0x1000000 0 2)).map (·.map Visit.cluster) =
          some [2, 3] ∧
      kernelWalk (bootFs 1 0x1000000) 2 0 2 =
        some ([⟨2, 0x1000002, 1, 0x1000001⟩], .error (.panic .lbaTooLarge))) ∧
    Chain (bootFs 64 64).link (some 2) [2, 3] ∧ (∀ c ∈ [2, 3], Addressed (bootFs 64 64) c) ∧
      (∀ fuel, clusterReadLoop (bootDrive 64 64).sector fuel
        (fatInit (bootDrive 64 64).sector 64 0 2) = none) ∧
      kernelWalk (bootFs 64 64) 2 0 2 = some ([⟨2, 66, 64, 65⟩, ⟨3, 130, 64, 65⟩], .ok ()) := by
  refine ⟨⟨⟨rfl, ?_, ?_⟩, ?_, ?_, ?_⟩, ⟨rfl, ?_, ?_⟩, ?_, fun fuel => ?_, ?_⟩
  · decide +kernel
  · rw [chain_nil]
    decide +kernel
  · intro c hc
    rcases List.mem_pair.mp hc with rfl | rfl
    · exact ⟨by decide +kernel, by decide +kernel, by decide +kernel⟩
    · exact ⟨by decide +kernel, by decide +kernel, by decide +kernel⟩
  · decide +kernel
  · decide +kernel
  · decide +kernel
  · rw [chain_nil]
    decide +kernel
  · intro c hc
    rcases List.mem_pair.mp hc with rfl | rfl
    · exact ⟨by decide +kernel, by decide +kernel, by decide +kernel⟩
    · exact ⟨by decide +kernel, by decide +kernel, by decide +kernel⟩
  · exact clusterReadLoop_large (fatInit_ready (bootDrive 64 64) 64 0 2 200 fun _ => true)
      (by decide +kernel) _ fuel
  · decide +kernel

end Crabos.Loader
