import Crabos.Fs.FileRead

/-!
# Reads that fail

The position is moved while a read is under way. After an error it is where the
read had come to, or, if a link could not be read, at the beginning of the
cluster that was to be left.
-/
namespace Crabos.Fat16

open Crabos.Disk Crabos.Linked

/-- The same disk after the faults have cleared. -/
def Filesystem.cleared (fs : Filesystem) : Filesystem := fs.under (fun _ => none) fs.alloc

/-- The place in the cluster. -/
def Seek.place (s : Seek) : Nat := s.sector * SECTOR_SIZE + s.offset

/-- What a read asks the drive for: a sector, of which so many bytes are still to
be read, or the link of a cluster. -/
inductive Access where
  | data (room : Nat)
  | link
  deriving DecidableEq, Repr

/-- The sectors of a cluster from a place on. -/
def sectorsFrom (spc place : Nat) : List Access :=
  if place % SECTOR_SIZE = 0 then List.replicate (spc - place / SECTOR_SIZE) (.data SECTOR_SIZE)
  else .data (SECTOR_SIZE - place % SECTOR_SIZE) ::
    List.replicate (spc - place / SECTOR_SIZE - 1) (.data SECTOR_SIZE)

/-- The accesses up to the end of the file. -/
def accessesFrom (spc place : Nat) : List Nat → List Access
  | [] => []
  | _ :: cs => sectorsFrom spc place ++ .link :: accessesFrom spc 0 cs

/-- The accesses of a read of `len` bytes, each with the number of bytes that are
in the buffer before it. -/
def accesses : List Access → Nat → Nat → List (Access × Nat)
  | [], _, _ => []
  | .link :: as, len, done => if len = 0 then [] else (.link, done) :: accesses as len done
  | .data room :: as, len, done =>
    if len = 0 then []
    else (.data room, done) :: accesses as (len - room) (done + min room len)

/-- The first access that the drive fails. -/
def firstFault {α : Type} (fault : Nat → Option AtaError) : Nat → List α → Option α
  | _, [] => none
  | request, a :: as => if (fault request).isSome then some a else firstFault fault (request + 1) as

/-- The first access that fails in a read of `len` bytes. -/
def Filesystem.failing (fs : Filesystem) (request : Nat) (s : Seek) (cs : List Nat)
    (len done : Nat) : Option (Access × Nat) :=
  firstFault fs.part.drive.fault request (accesses (accessesFrom fs.bpb.spc s.place cs) len done)

variable {fs : Filesystem}

theorem place_start (head : Option Nat) : Seek.place ⟨head, 0, 0⟩ = 0 := by
  simp [Seek.place]

theorem accesses_zero (as : List Access) (done : Nat) : accesses as 0 done = [] := by
  cases as with
  | nil => rfl
  | cons a as =>
    cases a with
    | data room => rfl
    | link => rfl

/-- In the middle of a cluster the rest of a sector comes first. -/
theorem sectorsFrom_inside {spc sector offset : Nat} (hs : sector < spc) (ho : offset < SECTOR_SIZE) :
    sectorsFrom spc (sector * SECTOR_SIZE + offset) =
      .data (SECTOR_SIZE - offset) :: sectorsFrom spc ((sector + 1) * SECTOR_SIZE) := by
  have hmod : (sector * SECTOR_SIZE + offset) % SECTOR_SIZE = offset := by
    rw [Nat.mul_comm, Nat.mul_add_mod, Nat.mod_eq_of_lt ho]
  have hdiv : (sector * SECTOR_SIZE + offset) / SECTOR_SIZE = sector := by
    rw [Nat.mul_comm, Nat.mul_add_div sectorSize_pos, Nat.div_eq_of_lt ho, Nat.add_zero]
  rw [sectorsFrom, hmod, hdiv, sectorsFrom, if_pos (Nat.mul_mod_left _ _),
    Nat.mul_div_cancel _ sectorSize_pos, ← Nat.sub_sub]
  split
  · rename_i hzero
    rw [hzero, Nat.sub_zero]
    obtain ⟨n, hn⟩ := Nat.exists_eq_succ_of_ne_zero (Nat.sub_ne_zero_of_lt hs)
    rw [hn]
    rfl
  · rfl

theorem sectorsFrom_end (spc : Nat) : sectorsFrom spc (spc * SECTOR_SIZE) = [] := by
  rw [sectorsFrom, if_pos (Nat.mul_mod_left _ _), Nat.mul_div_cancel _ sectorSize_pos, Nat.sub_self]
  rfl

/-- Where a read of a file stands when it is over: it has failed at the access, and
its position is as many bytes further on as it had copied, but a whole cluster
further back if it was the link that failed. -/
def Outcome (fs : Filesystem) (s : Seek) (cs : List Nat) (total : Nat) (call : ReadCall) :
    Option (Access × Nat) → Prop
  | none => (∃ n, call.result = .ok n) ∧ ∃ cs', At fs call.seek cs'
  | some (a, done) => (∃ e, call.result = .error (.ata e)) ∧
    ∃ cs', At fs call.seek cs' ∧ remaining fs call.seek cs' <:+ fs.chainBytes cs ∧
      (remaining fs call.seek cs').length + done = (remaining fs s cs).length + total +
        if a = .link then fs.bpb.spc * SECTOR_SIZE else 0

/-- Copied bytes do not matter for where a read stands. -/
theorem Outcome.after {s s₁ : Seek} {cs cs₁ : List Nat} {total total₁ : Nat} {call : ReadCall}
    {a : Option (Access × Nat)} (h : Outcome fs s₁ cs₁ total₁ call a)
    (hcs : fs.chainBytes cs₁ <:+ fs.chainBytes cs)
    (hlen : (remaining fs s₁ cs₁).length + total₁ = (remaining fs s cs).length + total)
    (copied : List UInt8) : Outcome fs s cs total (call.after copied) a := by
  cases a with
  | none => exact h
  | some a =>
    obtain ⟨herror, cs', hat, hsuffix, hplace⟩ := h
    refine ⟨herror, cs', hat, hsuffix.trans hcs, ?_⟩
    rw [← hlen]
    exact hplace

theorem remaining_suffix (s : Seek) (cs : List Nat) : remaining fs s cs <:+ fs.chainBytes cs := by
  cases cs with
  | nil => exact List.suffix_refl _
  | cons c cs =>
    obtain ⟨front, hfront⟩ := List.drop_suffix s.place (fs.clusterBytes c)
    refine ⟨front, ?_⟩
    rw [remaining, ← List.append_assoc]
    exact congrArg (· ++ fs.chainBytes cs) hfront

/-- The rest of a turn after the moves to the next sector and cluster. -/
theorem readLoop_settled {s s₁ : Seek} {cs : List Nat} {turns request request₁ total : Nat}
    {buf : List UInt8} (hnil : buf.length ≠ 0)
    (hleave : fs.leaveCluster request (Filesystem.leaveSector s) = (.ok (), s₁, request₁))
    (h : At fs s₁ cs) (hoff : s₁.offset < SECTOR_SIZE)
    (ih : ∀ {s : Seek} {cs : List Nat}, At fs s cs → ∀ {buf : List UInt8}, buf.length ≤ turns →
      ∀ request total, Outcome fs s cs total (fs.readLoop turns request s buf total)
        (fs.failing request s cs buf.length total)) (hbuf : buf.length ≤ turns + 1) :
    Outcome fs s₁ cs total (fs.readLoop (turns + 1) request s buf total)
      (fs.failing request₁ s₁ cs buf.length total) := by
  cases cs with
  | nil =>
    have hnone : s₁.cluster = none := h.file.chain
    rw [Filesystem.readLoop, if_neg hnil, hleave]
    simp only [hnone]
    exact ⟨⟨total, rfl⟩, [], h⟩
  | cons c cs =>
    have hsome : s₁.cluster = some c := h.file.chain.1
    obtain ⟨sector, hsector, hfront⟩ := sectorAt_cases h request₁
    have haccesses : fs.failing request₁ s₁ (c :: cs) buf.length total =
        if (fs.part.drive.fault request₁).isSome then some (.data (SECTOR_SIZE - s₁.offset), total)
        else firstFault fs.part.drive.fault (request₁ + 1)
          (accesses (accessesFrom fs.bpb.spc ((s₁.sector + 1) * SECTOR_SIZE) (c :: cs))
            (buf.length - (SECTOR_SIZE - s₁.offset))
            (total + min (SECTOR_SIZE - s₁.offset) buf.length)) := by
      rw [Filesystem.failing, accessesFrom, Seek.place, sectorsFrom_inside h.sector hoff,
        List.cons_append, accesses, if_neg hnil, firstFault, accessesFrom]
    rw [haccesses]
    cases hfault : fs.part.drive.fault request₁ with
    | some e =>
      rw [hfault] at hsector
      rw [Filesystem.readLoop, if_neg hnil, hleave]
      simp only [hsome, hsector]
      exact ⟨⟨e, rfl⟩, c :: cs, h, remaining_suffix _ _, rfl⟩
    | none =>
      rw [hfault] at hsector
      generalize hk : min (SECTOR_SIZE - s₁.offset) buf.length = k
      have hk₁ : k ≤ SECTOR_SIZE - s₁.offset := hk ▸ Nat.min_le_left _ _
      have hk₂ : k ≤ buf.length := hk ▸ Nat.min_le_right _ _
      have hlen := room_le h
      have h₂ : At fs { s₁ with offset := s₁.offset + k } (c :: cs) := by
        refine ⟨h.file, h.good, h.sector, ?_⟩
        change s₁.offset + k ≤ _
        omega
      have hturns : (buf.drop k).length ≤ turns := by
        rw [List.length_drop]
        omega
      have hrest := ih h₂ hturns (request₁ + 1) (total + k)
      have hsame : fs.failing (request₁ + 1) { s₁ with offset := s₁.offset + k } (c :: cs)
          (buf.drop k).length (total + k) = firstFault fs.part.drive.fault (request₁ + 1)
            (accesses (accessesFrom fs.bpb.spc ((s₁.sector + 1) * SECTOR_SIZE) (c :: cs))
              (buf.length - (SECTOR_SIZE - s₁.offset)) (total + k)) := by
        rw [Filesystem.failing, List.length_drop]
        by_cases hfull : SECTOR_SIZE - s₁.offset ≤ buf.length
        · have hk₀ : k = SECTOR_SIZE - s₁.offset := by omega
          have hplace : Seek.place { s₁ with offset := s₁.offset + k } =
              (s₁.sector + 1) * SECTOR_SIZE := by
            rw [Nat.succ_mul]
            change s₁.sector * SECTOR_SIZE + (s₁.offset + k) = _
            omega
          rw [hplace, ← hk₀]
        · -- the buffer is full
          rw [show buf.length - k = 0 by omega,
            show buf.length - (SECTOR_SIZE - s₁.offset) = 0 by omega, accesses_zero, accesses_zero]
      rw [hsame] at hrest
      rw [readLoop_copy hnil hleave hsome hsector h.offset hk]
      refine hrest.after (List.suffix_refl _) ?_ _
      rw [remaining_offset k (by omega), List.length_drop]
      omega

theorem readLoop_failing {s : Seek} {cs : List Nat} (h : At fs s cs) {turns : Nat}
    {buf : List UInt8} (hbuf : buf.length ≤ turns) (request total : Nat) :
    Outcome fs s cs total (fs.readLoop turns request s buf total)
      (fs.failing request s cs buf.length total) := by
  induction turns generalizing s cs buf request total with
  | zero =>
    obtain rfl := List.eq_nil_of_length_eq_zero (Nat.le_zero.mp hbuf)
    rw [Filesystem.failing, List.length_nil, accesses_zero]
    exact ⟨⟨total, rfl⟩, cs, h⟩
  | succ turns ih =>
    by_cases hnil : buf.length = 0
    · rw [Filesystem.failing, hnil, accesses_zero, Filesystem.readLoop, if_pos hnil]
      exact ⟨⟨total, rfl⟩, cs, h⟩
    · by_cases hmove : AtEnd fs s ∧ cs ≠ []
      · obtain ⟨hend, hne⟩ := hmove
        obtain ⟨c, cs, rfl⟩ := List.exists_cons_of_ne_nil hne
        obtain ⟨h₁, hbytes₁⟩ := at_cluster h.spc_pos (ChainOf.tail h.file) (NoBad.tail h.good)
        have hplace : s.place = fs.bpb.spc * SECTOR_SIZE := by
          rw [Seek.place, hend.1, ← hend.2, Nat.succ_mul]
        have haccesses : fs.failing request s (c :: cs) buf.length total =
            if (fs.part.drive.fault request).isSome then some (.link, total)
            else fs.failing (request + 1) ⟨fs.link c, 0, 0⟩ cs buf.length total := by
          rw [Filesystem.failing, accessesFrom, hplace, sectorsFrom_end, List.nil_append, accesses,
            if_neg hnil, firstFault, Filesystem.failing, place_start]
        have hleave := leaveCluster_move h hend request
        rw [haccesses]
        cases hfault : fs.part.drive.fault request with
        | some e =>
          -- the old cluster from its beginning
          rw [hfault] at hleave
          obtain ⟨h₀, hbytes₀⟩ := at_cluster h.spc_pos (h.file.chain.1 ▸ h.file) h.good
          rw [Filesystem.readLoop, if_neg hnil, hleave]
          refine ⟨⟨e, rfl⟩, c :: cs, h₀, remaining_suffix _ _, ?_⟩
          rw [hbytes₀, remaining_atEnd hend, if_pos rfl, chainBytes_cons, List.length_append,
            clusterBytes_length, Nat.add_assoc, Nat.add_comm]
        | none =>
          rw [hfault] at hleave
          have hsettled : Outcome fs _ cs total _ _ :=
            readLoop_settled hnil hleave h₁ sectorSize_pos ih hbuf
          refine hsettled.after (List.suffix_append _ _) ?_ []
          rw [hbytes₁, remaining_atEnd hend]
      · obtain ⟨s₁, hleave, h₁, hoff, hsame, hplace⟩ := leaveCluster_stay h
          (fun hend => by_contra fun hne => hmove ⟨hend, hne⟩) request
        have hsettled : Outcome fs s₁ cs total _ _ := readLoop_settled hnil hleave h₁ hoff ih hbuf
        have haccesses : fs.failing request s cs buf.length total =
            fs.failing request s₁ cs buf.length total := by
          cases cs with
          | nil => rw [Filesystem.failing, Filesystem.failing, accessesFrom, accessesFrom]
          | cons c cs =>
            rw [Filesystem.failing, Filesystem.failing, Seek.place, Seek.place,
              hplace (List.cons_ne_nil c cs)]
        rw [haccesses]
        exact hsettled.after (List.suffix_refl _) (by rw [hsame]) []

/-- A read from the one position returns what a read from the other one does. -/
def SamePlace (fs : Filesystem) (s s' : Seek) : Prop :=
  ∀ request buf, (fs.read request s buf).returned = (fs.read request s' buf).returned

theorem at_under {s : Seek} {cs : List Nat} (h : At fs s cs) (fault : Nat → Option AtaError)
    (alloc : Nat → Bool) : At (fs.under fault alloc) s cs :=
  ⟨⟨h.file.chain, h.file.valid, h.file.fat, h.file.data⟩, h.good, h.sector, h.offset⟩

theorem returned_cleared {s : Seek} {cs : List Nat} (h : At fs s cs) (request : Nat)
    (buf : List UInt8) :
    (fs.cleared.read request s buf).returned = (remaining fs s cs).take buf.length := by
  have hcleared : At fs.cleared s cs := at_under h (fun _ => none) fs.alloc
  obtain ⟨s', cs', request', hread, -, -⟩ := read_ok (fun _ => rfl) hcleared request buf
  rw [hread]
  exact List.take_left' List.length_take

theorem samePlace_iff {s s' : Seek} {cs cs' : List Nat} (h : At fs s cs) (h' : At fs s' cs') :
    SamePlace fs.cleared s s' ↔ remaining fs s cs = remaining fs s' cs' := by
  constructor
  · intro hsame
    generalize hn : max (remaining fs s cs).length (remaining fs s' cs').length = n
    have hread := hsame 0 (List.replicate n 0)
    rw [returned_cleared h, returned_cleared h', List.length_replicate,
      List.take_of_length_le (by omega), List.take_of_length_le (by omega)] at hread
    exact hread
  · intro hsame request buf
    rw [returned_cleared h, returned_cleared h', hsame]

/-- Nothing fails, or a sector before any byte has been copied, or the link of a
cluster after just the bytes of that cluster have been. -/
def Harmless (fs : Filesystem) : Option (Access × Nat) → Prop
  | none => True
  | some (.data _, done) => done = 0
  | some (.link, done) => done = fs.bpb.spc * SECTOR_SIZE

instance : (a : Option (Access × Nat)) → Decidable (Harmless fs a)
  | none => inferInstanceAs (Decidable True)
  | some (.data _, done) => inferInstanceAs (Decidable (done = 0))
  | some (.link, done) => inferInstanceAs (Decidable (done = fs.bpb.spc * SECTOR_SIZE))

/-- The position after an error is the one before the call just when nothing had been
copied, or as much as the failing link sets the position back. -/
theorem error_keeps_place_iff {s : Seek} {cs : List Nat} (h : At fs s cs) (request : Nat)
    (buf : List UInt8) :
    (∀ e, (fs.read request s buf).result = .error e →
        SamePlace fs.cleared (fs.read request s buf).seek s) ↔
      Harmless fs (fs.failing request s cs buf.length 0) := by
  have hout := readLoop_failing h (Nat.le_refl buf.length) request 0
  change Outcome fs s cs 0 (fs.read request s buf) _ at hout
  generalize fs.read request s buf = call at hout ⊢
  cases hfail : fs.failing request s cs buf.length 0 with
  | none =>
    rw [hfail] at hout
    obtain ⟨⟨n, hok⟩, -⟩ := hout
    refine ⟨fun _ => trivial, fun _ e he => ?_⟩
    rw [hok] at he
    cases he
  | some a =>
    obtain ⟨a, done⟩ := a
    rw [hfail] at hout
    obtain ⟨⟨e, herror⟩, cs', hat, hsuffix, hlen⟩ := hout
    -- both positions are suffixes of the file, so their lengths tell them apart
    have hplace : remaining fs call.seek cs' = remaining fs s cs ↔
        (remaining fs call.seek cs').length = (remaining fs s cs).length := by
      refine ⟨congrArg List.length, fun heq => ?_⟩
      have hle := List.suffix_of_suffix_length_le hsuffix (remaining_suffix s cs) (Nat.le_of_eq heq)
      exact hle.eq_of_length heq
    have hkeeps : (∀ e, call.result = .error e → SamePlace fs.cleared call.seek s) ↔
        (remaining fs call.seek cs').length = (remaining fs s cs).length := by
      rw [← hplace, ← samePlace_iff hat h]
      exact ⟨fun hall => hall _ herror, fun hsame _ _ => hsame⟩
    rw [hkeeps]
    cases a with
    | data room =>
      rw [if_neg nofun] at hlen
      change _ ↔ done = 0
      omega
    | link =>
      rw [if_pos rfl] at hlen
      change _ ↔ done = _
      omega

/-- A volume on which one request fails. -/
def failingVolume (n : Nat) : Filesystem :=
  (smallVolume 3 1).under (fun request => if request = n then some 0x40 else none) fun _ => true

def faultyVolume : Filesystem := failingVolume 2

theorem failingVolume_at (n : Nat) : At (failingVolume n) (Seek.start 2) [2, 3] :=
  ⟨⟨smallVolume_file.chain, smallVolume_file.valid, smallVolume_file.fat, smallVolume_file.data⟩,
    smallVolume_noBad, show 0 < 1 by decide, Nat.zero_le _⟩

/-- The first request fails before a byte is copied, the third one after the first cluster. -/
theorem error_keeps_place_first_third :
    (∀ e, ((failingVolume 0).read 0 (Seek.start 2) (List.replicate 600 0)).result = .error e →
      SamePlace (failingVolume 0).cleared
        ((failingVolume 0).read 0 (Seek.start 2) (List.replicate 600 0)).seek (Seek.start 2)) ∧
      ¬ ∀ e, (faultyVolume.read 0 (Seek.start 2) (List.replicate 600 0)).result = .error e →
        SamePlace faultyVolume.cleared
          (faultyVolume.read 0 (Seek.start 2) (List.replicate 600 0)).seek (Seek.start 2) := by
  refine ⟨(error_keeps_place_iff (failingVolume_at 0) 0 _).mpr ?_, ?_⟩
  · rw [List.length_replicate]
    decide
  · rw [faultyVolume, error_keeps_place_iff (failingVolume_at 2), List.length_replicate]
    decide

/-- The second half of the file cannot be read; the next call begins with it. -/
theorem fault_skips_cluster :
    At faultyVolume (Seek.start 2) [2, 3] ∧
      (faultyVolume.read 0 (Seek.start 2) (List.replicate 600 0)).result = .error (.ata 0x40) ∧
      ¬ SamePlace faultyVolume.cleared
        (faultyVolume.read 0 (Seek.start 2) (List.replicate 600 0)).seek (Seek.start 2) := by
  refine ⟨failingVolume_at 2, by decide +kernel, fun hsame => ?_⟩
  have hlen := congrArg List.length (hsame 3 (List.replicate 600 0))
  revert hlen
  decide +kernel

end Crabos.Fat16
