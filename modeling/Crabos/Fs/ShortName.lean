import Crabos.Fs.Directory

/-!
# Short names (`kernel/src/fs/fat16.rs`)

The name of an entry is a field of eight bytes and a field of three, both filled
up with spaces. `filename` writes them as one string in lower case, with a dot
between them if the second one is not blank. No two names are written alike, so
a search by name can find one entry at most.
-/
namespace Crabos.Fat16

namespace RawDirEntry

/-- A byte of a name. -/
def NameByte (b : UInt8) : Prop := b ≠ 0x20 ∧ b ≠ 0x2e ∧ ¬ (0x61 ≤ b ∧ b ≤ 0x7a)

instance (b : UInt8) : Decidable (NameByte b) := inferInstanceAs (Decidable (_ ∧ _ ∧ _))

/-- The bytes of a name, filled up with spaces to the length of the field. -/
def Fills (field name : List UInt8) : Prop :=
  (∀ b ∈ name, NameByte b) ∧ field = name ++ List.replicate (field.length - name.length) 0x20

/-- An entry with a name as the format has it. -/
def ShortName (e : RawDirEntry) : Prop :=
  (∃ base, base ≠ [] ∧ Fills e.basename.toList base) ∧ ∃ ext, Fills e.extension.toList ext

/-- The name on the disk, eleven bytes. -/
def rawName (e : RawDirEntry) : List UInt8 := e.basename.toList ++ e.extension.toList

/-- What is behind the first field: nothing, or a dot and the second one. -/
def suffix (ext : List UInt8) : List UInt8 :=
  if ext = [] then [] else 0x2e :: ext.map toAsciiLowercase

def BlankExtension (e : RawDirEntry) : Prop := ∀ b ∈ e.extension.toList, b = 0x20

section name

variable {e e' : RawDirEntry} {field name base ext : List UInt8}

theorem toAsciiLowercase_toNat (b : UInt8) :
    (toAsciiLowercase b).toNat =
      if 0x41 ≤ b.toNat ∧ b.toNat ≤ 0x5a then b.toNat + 0x20 else b.toNat := by
  have hcond : (0x41 ≤ b ∧ b ≤ 0x5a) ↔ 0x41 ≤ b.toNat ∧ b.toNat ≤ 0x5a := by
    simp only [UInt8.le_iff_toNat_le]
    rfl
  rw [toAsciiLowercase]
  simp only [hcond]
  split
  · rw [UInt8.toNat_add]
    simp
    omega
  · rfl

/-- Without lower case on the disk, case is not lost. -/
theorem toAsciiLowercase_inj {a b : UInt8} (ha : NameByte a) (hb : NameByte b)
    (h : toAsciiLowercase a = toAsciiLowercase b) : a = b := by
  have hnat := congrArg UInt8.toNat h
  have ha' := ha.2.2
  have hb' := hb.2.2
  simp only [UInt8.le_iff_toNat_le] at ha' hb'
  simp at ha' hb'
  rw [toAsciiLowercase_toNat, toAsciiLowercase_toNat] at hnat
  apply UInt8.toNat_inj.mp
  split at hnat
  · split at hnat
    · omega
    · omega
  · split at hnat
    · omega
    · omega

/-- Neither a space nor a dot comes from a byte of a name. -/
theorem toAsciiLowercase_ne {b : UInt8} (hb : NameByte b) :
    toAsciiLowercase b ≠ 0x20 ∧ toAsciiLowercase b ≠ 0x2e := by
  have hspace : b.toNat ≠ 0x20 := fun h => hb.1 (UInt8.toNat_inj.mp h)
  have hdot : b.toNat ≠ 0x2e := fun h => hb.2.1 (UInt8.toNat_inj.mp h)
  constructor
  · intro h
    have hnat := congrArg UInt8.toNat h
    rw [toAsciiLowercase_toNat] at hnat
    change _ = 0x20 at hnat
    split at hnat
    · omega
    · omega
  · intro h
    have hnat := congrArg UInt8.toNat h
    rw [toAsciiLowercase_toNat] at hnat
    change _ = 0x2e at hnat
    split at hnat
    · omega
    · omega

theorem trim_spaces (hname : ∀ b ∈ name, b ≠ 0x20) (n : Nat) :
    trim (name ++ List.replicate n 0x20) = name := by
  change List.rdropWhile (· == 0x20) _ = name
  induction n with
  | zero =>
    rw [List.replicate_zero, List.append_nil, List.rdropWhile_eq_self_iff]
    intro hne
    simpa using hname _ (List.getLast_mem hne)
  | succ n ih =>
    rw [List.replicate_succ', ← List.append_assoc, List.rdropWhile_concat_pos _ _ _ (by simp), ih]

theorem lower_spaces (name : List UInt8) (n : Nat) :
    (name ++ List.replicate n 0x20).map toAsciiLowercase =
      name.map toAsciiLowercase ++ List.replicate n 0x20 := by
  rw [List.map_append, List.map_replicate]
  rfl

theorem lower_mem (hname : ∀ b ∈ name, NameByte b) :
    ∀ c ∈ name.map toAsciiLowercase, c ≠ 0x20 ∧ c ≠ 0x2e := by
  intro c hc
  obtain ⟨b, hb, rfl⟩ := List.mem_map.mp hc
  exact toAsciiLowercase_ne (hname b hb)

/-- The name as it is written: in lower case, and the extension behind a dot if there is one. -/
theorem filename_eq (hb : Fills e.basename.toList base) (he : Fills e.extension.toList ext) :
    e.filename = base.map toAsciiLowercase ++ suffix ext := by
  have hbase : trim (e.basename.toList.map toAsciiLowercase) = base.map toAsciiLowercase := by
    rw [hb.2, lower_spaces]
    exact trim_spaces (fun c hc => (lower_mem hb.1 c hc).1) _
  rw [filename, hbase, suffix]
  have hlen : e.extension.toList.length = 3 := e.extension.length_toList
  cases ext with
  | nil =>
    have hhead : e.extension.toList.head? = some 0x20 := by
      rw [he.2, hlen]
      rfl
    rw [if_pos hhead, if_pos rfl, List.append_nil]
  | cons b ext =>
    have hhead : e.extension.toList.head? ≠ some 0x20 := by
      rw [he.2]
      intro h
      exact (he.1 b List.mem_cons_self).1 (Option.some.inj h)
    rw [if_neg hhead, if_neg (List.cons_ne_nil b ext), he.2, lower_spaces, ← List.append_assoc,
      trim_spaces, List.append_assoc]
    · rfl
    intro c hc
    rcases List.mem_append.mp hc with hc | hc
    · rcases List.mem_append.mp hc with hc | hc
      · exact (lower_mem hb.1 c hc).1
      · rw [List.mem_singleton.mp hc]
        decide
    · exact (lower_mem he.1 c hc).1

theorem lower_inj {name name' : List UInt8} (h₁ : ∀ b ∈ name, NameByte b)
    (h₂ : ∀ b ∈ name', NameByte b) (h : name.map toAsciiLowercase = name'.map toAsciiLowercase) :
    name = name' := by
  induction name generalizing name' with
  | nil => exact (List.map_eq_nil_iff.mp h.symm).symm
  | cons b name ih =>
    cases name' with
    | nil => cases h
    | cons b' name' =>
      obtain ⟨hhead, htail⟩ := List.cons.inj h
      rw [toAsciiLowercase_inj (h₁ b List.mem_cons_self) (h₂ b' List.mem_cons_self) hhead,
        ih (fun c hc => h₁ c (List.mem_cons_of_mem _ hc))
          (fun c hc => h₂ c (List.mem_cons_of_mem _ hc)) htail]

theorem suffix_inj {ext ext' : List UInt8} (h₁ : ∀ b ∈ ext, NameByte b)
    (h₂ : ∀ b ∈ ext', NameByte b) (h : suffix ext = suffix ext') : ext = ext' := by
  rw [suffix, suffix] at h
  split at h
  · rename_i hnil
    split at h
    · rename_i hnil'
      rw [hnil, hnil']
    · cases h
  · split at h
    · cases h
    · exact lower_inj h₁ h₂ (List.cons.inj h).2

/-- The first dot is the one between the two fields. -/
theorem takeWhile_dot (hbase : ∀ b ∈ base, NameByte b) (ext : List UInt8) :
    (base.map toAsciiLowercase ++ suffix ext).takeWhile (· != 0x2e) =
      base.map toAsciiLowercase := by
  rw [List.takeWhile_append_of_pos, suffix]
  · split
    · rw [List.takeWhile_nil, List.append_nil]
    · rw [List.takeWhile_cons_of_neg (by simp), List.append_nil]
  · intro c hc
    simpa using (lower_mem hbase c hc).2

theorem Fills.length_le (h : Fills field name) : name.length ≤ field.length := by
  rw [h.2, List.length_append]
  exact Nat.le_add_right _ _

theorem Fills.blank_iff (h : Fills field name) : (∀ b ∈ field, b = 0x20) ↔ name = [] := by
  constructor
  · intro hblank
    cases name with
    | nil => rfl
    | cons b name =>
      have hb : b ∈ field := by
        rw [h.2]
        exact List.mem_append_left _ List.mem_cons_self
      exact absurd (hblank b hb) (h.1 b List.mem_cons_self).1
  · rintro rfl b hb
    rw [h.2] at hb
    exact List.eq_of_mem_replicate hb

theorem Fills.field_eq {field' : List UInt8} (h : Fills field name) (h' : Fills field' name)
    (hlen : field.length = field'.length) : field = field' := by
  rw [h.2, h'.2, hlen]

/-- Names that are written alike are the same name. -/
theorem rawName_of_filename (h₁ : ShortName e) (h₂ : ShortName e') (h : e.filename = e'.filename) :
    e.rawName = e'.rawName := by
  obtain ⟨⟨base, -, hb⟩, ext, he⟩ := h₁
  obtain ⟨⟨base', -, hb'⟩, ext', he'⟩ := h₂
  rw [filename_eq hb he, filename_eq hb' he'] at h
  have hlower := congrArg (List.takeWhile (· != 0x2e)) h
  rw [takeWhile_dot hb.1, takeWhile_dot hb'.1] at hlower
  have hbase : base = base' := lower_inj hb.1 hb'.1 hlower
  subst hbase
  have hext : ext = ext' := suffix_inj he.1 he'.1 (List.append_cancel_left h)
  subst hext
  have hlen₈ : e.basename.toList.length = e'.basename.toList.length := by
    rw [e.basename.length_toList, e'.basename.length_toList]
  have hlen₃ : e.extension.toList.length = e'.extension.toList.length := by
    rw [e.extension.length_toList, e'.extension.length_toList]
  rw [rawName, rawName, hb.field_eq hb' hlen₈, he.field_eq he' hlen₃]

theorem filename_length (h : ShortName e) : e.filename.length ≤ 12 := by
  obtain ⟨⟨base, -, hb⟩, ext, he⟩ := h
  have hbase : base.length ≤ 8 := hb.length_le.trans_eq e.basename.length_toList
  have hext : ext.length ≤ 3 := he.length_le.trans_eq e.extension.length_toList
  have hsuffix : (suffix ext).length ≤ ext.length + 1 := by
    rw [suffix]
    split
    · exact Nat.zero_le _
    · rw [List.length_cons, List.length_map]
  rw [filename_eq hb he, List.length_append, List.length_map]
  omega

theorem filename_dot (h : ShortName e) : 0x2e ∈ e.filename ↔ ¬ e.BlankExtension := by
  obtain ⟨⟨base, -, hb⟩, ext, he⟩ := h
  have hblank : e.BlankExtension ↔ ext = [] := he.blank_iff
  rw [filename_eq hb he, List.mem_append, hblank, suffix]
  constructor
  · rintro (hdot | hdot) hnil
    · exact (lower_mem hb.1 _ hdot).2 rfl
    · rw [if_pos hnil] at hdot
      exact List.not_mem_nil hdot
  · intro hne
    rw [if_neg hne]
    exact .inr List.mem_cons_self

/-- No two names are written alike. What is written has twelve bytes at most, and it has a dot
just when there is an extension. -/
theorem filename_faithful {e e' : RawDirEntry} (h₁ : ShortName e) (h₂ : ShortName e') :
    (e.rawName ≠ e'.rawName → e.filename ≠ e'.filename) ∧ e.filename.length ≤ 12 ∧
      (0x2e ∈ e.filename ↔ ¬ e.BlankExtension) :=
  ⟨fun hne h => hne (rawName_of_filename h₁ h₂ h), filename_length h₁, filename_dot h₁⟩

end name

/-- `KERNEL.2` and the directory `KERNEL2`. -/
def kernel2 (dot : Bool) : RawDirEntry where
  basename := if dot then #v[75, 69, 82, 78, 69, 76, 32, 32] else #v[75, 69, 82, 78, 69, 76, 50, 32]
  extension := if dot then #v[50, 32, 32] else Vector.replicate 3 32
  attributes := 0
  clusterHi := 0
  clusterLo := 2
  size := 0

theorem kernel2_shortName (dot : Bool) : ShortName (kernel2 dot) := by
  cases dot with
  | true =>
    exact ⟨⟨[75, 69, 82, 78, 69, 76], by decide, by decide +kernel, rfl⟩, [50],
      by decide +kernel, rfl⟩
  | false =>
    exact ⟨⟨[75, 69, 82, 78, 69, 76, 50], by decide, by decide +kernel, rfl⟩, [],
      by simp, rfl⟩

theorem filename_faithful_kernel :
    (kernel2 true).filename ≠ (kernel2 false).filename ∧ (kernel2 true).filename.length ≤ 12 ∧
      (0x2e ∈ (kernel2 true).filename ↔ ¬ (kernel2 true).BlankExtension) := by
  have h := filename_faithful (kernel2_shortName true) (kernel2_shortName false)
  exact ⟨h.1 (by decide), h.2⟩

end RawDirEntry

end Crabos.Fat16
