import Crabos.Fs.FileRead

/-!
# Walking over clusters (`kernel/src/fs/fat16.rs`)

`cluster_chain` is an unfold: every pull reads the link of a cluster before it
yields the cluster. Consumers pull until the stream ends or they have what they
look for, so the walk may be cut short, and on a chain with a cycle it need not
end at all; `fuel` bounds the number of pulls.
-/
namespace Crabos.Fat16

open Crabos.Disk Crabos.Linked

/-- What a pull of `cluster_chain` comes to. -/
inductive Pull where
  | item (cluster : Nat) (rest : Option Nat)
  | finished
  | failed (e : Fault)
  deriving DecidableEq

/-- The closure of the unfold. Where there is no next cluster, the `?` on the
transposed result ends the stream. -/
def Filesystem.clusterChain (fs : Filesystem) (request : Nat) : Option Nat → Pull
  | none => .finished
  | some cluster =>
    match fs.nextCluster request cluster with
    | .error e => .failed e
    | .ok none => .finished
    | .ok (some next) => .item cluster (some next)

/-- A consumer: it goes on with the next request, or it stops. -/
abbrev Body (α σ ρ : Type) := α → Nat × σ → Except ρ (Nat × σ)

variable {α σ ρ : Type}

/-- The items of a list, one after the other. -/
def forAll (body : Body α σ ρ) : List α → Nat × σ → Except ρ (Nat × σ)
  | [], s => .ok s
  | a :: as, s =>
    match body a s with
    | .error r => .error r
    | .ok s => forAll body as s

/-- The clusters of a chain, as long as the consumer wants them. -/
def Filesystem.forClusters (fs : Filesystem) (fail : Fault → ρ) (body : Body Nat σ ρ) :
    Nat → Option Nat → Nat × σ → Option (Except ρ (Nat × σ))
  | 0, _, _ => none
  | fuel + 1, cursor, (request, s) =>
    match fs.clusterChain request cursor with
    | .finished => some (.ok (request + 1, s))
    | .failed e => some (.error (fail e))
    | .item cluster rest =>
      match body cluster (request + 1, s) with
      | .error r => some (.error r)
      | .ok s => fs.forClusters fail body fuel rest s

/-- `sector_chain`: the sectors of the clusters. -/
def Filesystem.forSectors (fs : Filesystem) (fail : Fault → ρ) (body : Body Nat σ ρ) :
    Nat → Option Nat → Nat × σ → Option (Except ρ (Nat × σ)) :=
  fs.forClusters fail fun cluster s =>
    match fs.bpb.clusterSectors cluster with
    | .error e => .error (fail e)
    | .ok sectors => forAll body sectors s

/-- Everything that is yielded. -/
def collect (α : Type) : Body α (List α) Fault := fun a (request, as) => .ok (request, as ++ [a])

/-- More fuel does not change what a walk comes to. -/
theorem forClusters_mono {fs : Filesystem} {fail : Fault → ρ} {body : Body Nat σ ρ} {fuel : Nat}
    {cursor : Option Nat} {s : Nat × σ} {r : Except ρ (Nat × σ)}
    (h : fs.forClusters fail body fuel cursor s = some r) {fuel' : Nat} (hle : fuel ≤ fuel') :
    fs.forClusters fail body fuel' cursor s = some r := by
  induction fuel generalizing fuel' cursor s with
  | zero => cases h
  | succ fuel ih =>
    obtain ⟨fuel', rfl⟩ := Nat.exists_eq_add_of_le' (show 1 ≤ fuel' by omega)
    obtain ⟨request, s⟩ := s
    rw [Filesystem.forClusters] at h ⊢
    cases hp : fs.clusterChain request cursor with
    | finished =>
      rw [hp] at h
      exact h
    | failed e =>
      rw [hp] at h
      exact h
    | item cluster rest =>
      rw [hp] at h
      simp only at h ⊢
      cases hb : body cluster (request + 1, s) with
      | error r =>
        rw [hb] at h
        exact h
      | ok s =>
        rw [hb] at h
        exact ih h (by omega)

/-! Consumers for which the numbers of the requests make no difference, unless
a request is refused: then the walk is cut short. -/

section blind

variable {ρ' : Type} {cut : ρ → Prop} {f : ρ → ρ'} {g : α → σ → Except ρ' σ} {body : Body α σ ρ}

def forget (f : ρ → ρ') : Except ρ (Nat × σ) → Except ρ' σ
  | .error r => .error (f r)
  | .ok s => .ok s.2

/-- The outcome is the expected one, or the walk was cut short. -/
def UpTo (cut : ρ → Prop) (f : ρ → ρ') (x : Except ρ (Nat × σ)) (y : Except ρ' σ) : Prop :=
  forget f x = y ∨ ∃ r, x = .error r ∧ cut r

theorem UpTo.eq {x : Except ρ (Nat × σ)} {y : Except ρ' σ} (h : UpTo (fun _ => False) f x y) :
    forget f x = y := by
  rcases h with h | ⟨r, -, hr⟩
  · exact h
  · exact hr.elim

/-- With these items the consumer does what `g` says, whatever the number of the
request. -/
def Blind (cut : ρ → Prop) (f : ρ → ρ') (body : Body α σ ρ) (g : α → σ → Except ρ' σ)
    (as : List α) : Prop :=
  ∀ a ∈ as, ∀ s, UpTo cut f (body a s) (g a s.2)

/-- The items of a list without requests. -/
def fold (g : α → σ → Except ρ' σ) (as : List α) (s : σ) : Except ρ' σ :=
  as.foldlM (fun s a => g a s) s

theorem fold_cons (a : α) (as : List α) (s : σ) :
    fold g (a :: as) s = (g a s).bind (fold g as) := by
  rw [fold, List.foldlM_cons]
  rfl

theorem fold_append (as bs : List α) (s : σ) :
    fold g (as ++ bs) s = (fold g as s).bind (fold g bs) := by
  rw [fold, List.foldlM_append]
  rfl

theorem fold_flatMap {β : Type} (items : β → List α) (bs : List β) (s : σ) :
    fold g (bs.flatMap items) s = fold (fun b => fold g (items b)) bs s := by
  induction bs generalizing s with
  | nil => rfl
  | cons b bs ih =>
    rw [List.flatMap_cons, fold_append, fold_cons]
    congr 1
    funext s
    exact ih s

theorem fold_pure (as : List α) (s : σ) : fold (fun _ s => (.ok s : Except ρ' σ)) as s = .ok s := by
  induction as with
  | nil => rfl
  | cons a as ih =>
    rw [fold_cons]
    exact ih

theorem forget_ok {x : Except ρ (Nat × σ)} {s : σ} (h : forget f x = .ok s) :
    ∃ request, x = .ok (request, s) := by
  cases x with
  | error r => cases h
  | ok s =>
    cases h
    exact ⟨s.1, rfl⟩

/-- One item and then the others. -/
theorem UpTo.bind {x : Except ρ (Nat × σ)} {y : Except ρ' σ} (h : UpTo cut f x y)
    {k : Nat × σ → Except ρ (Nat × σ)} {k' : σ → Except ρ' σ}
    (hk : ∀ s, UpTo cut f (k s) (k' s.2)) : UpTo cut f (x.bind k) (y.bind k') := by
  rcases h with rfl | ⟨r, rfl, hr⟩
  · cases x with
    | error r => exact .inl rfl
    | ok s => exact hk s
  · exact .inr ⟨r, rfl, hr⟩

theorem forAll_cons (a : α) (as : List α) (s : Nat × σ) :
    forAll body (a :: as) s = (body a s).bind (forAll body as) := by
  rw [forAll]
  cases body a s with
  | error r => rfl
  | ok s => rfl

theorem forAll_upTo {as : List α} (hb : Blind cut f body g as) (s : Nat × σ) :
    UpTo cut f (forAll body as s) (fold g as s.2) := by
  induction as generalizing s with
  | nil => exact .inl rfl
  | cons a as ih =>
    rw [forAll_cons, fold_cons]
    exact (hb a List.mem_cons_self s).bind (ih fun b hm => hb b (List.mem_cons_of_mem _ hm))

end blind

section chains

variable {fs : Filesystem} {fail : Fault → ρ} {body : Body Nat σ ρ} {ρ' : Type} {cut : ρ → Prop}
  {f : ρ → ρ'} {g : Nat → σ → Except ρ' σ}

/-- A walk over a whole chain sees all clusters but the last one. -/
theorem forClusters_upTo {cs : List Nat} (hb : Blind cut f body g cs)
    (hcut : ∀ request e, fs.part.drive.fault request = some e → cut (fail (.ata e)))
    {c fuel : Nat} (h : fs.ChainOf (some c) cs) (hg : fs.NoBad cs) (hf : cs.length ≤ fuel)
    (s : Nat × σ) : ∃ x, fs.forClusters fail body fuel (some c) s = some x ∧
      UpTo cut f x (fold g cs.dropLast s.2) := by
  induction cs generalizing c fuel s with
  | nil => cases h.chain
  | cons d cs ih =>
    obtain rfl : c = d := Option.some.inj h.chain.1
    obtain ⟨fuel, rfl⟩ := Nat.exists_eq_add_of_le' (Nat.le_trans (Nat.le_add_left 1 cs.length) hf)
    obtain ⟨request, s⟩ := s
    have hmem : c ∈ c :: cs := List.mem_cons_self
    have htail := ChainOf.tail h
    rw [Filesystem.forClusters, Filesystem.clusterChain,
      nextCluster_link (h.valid c hmem).2 (h.fat c hmem) (hg c hmem)]
    cases hfault : fs.part.drive.fault request with
    | some e => exact ⟨_, rfl, .inr ⟨_, rfl, hcut request e hfault⟩⟩
    | none =>
      cases cs with
      | nil =>
        -- the end of the chain: this cluster is dropped
        have hend : fs.link c = none := htail.chain
        simp only [hend]
        exact ⟨_, rfl, .inl rfl⟩
      | cons d cs =>
        have hnext : fs.link c = some d := htail.chain.1
        rw [hnext] at htail
        simp only [hnext]
        rw [List.dropLast_cons_cons, fold_cons]
        rcases hb c hmem (request + 1, s) with hbody | ⟨r, hbody, hr⟩
        · rw [← hbody]
          cases body c (request + 1, s) with
          | error r => exact ⟨_, rfl, .inl rfl⟩
          | ok s =>
            exact ih (fun b hm => hb b (List.mem_cons_of_mem _ hm)) htail (NoBad.tail hg)
              (Nat.le_of_succ_le_succ hf) s
        · simp only [hbody]
          exact ⟨_, rfl, .inr ⟨r, rfl, hr⟩⟩

/-- The sectors of a cluster. -/
def Filesystem.sectorsOf (fs : Filesystem) (c : Nat) : List Nat :=
  List.range' (fs.dataSector c) fs.bpb.spc

theorem clusterSectors_ok {c : Nat} (h : 2 ≤ c) :
    fs.bpb.clusterSectors c = .ok (fs.sectorsOf c) := by
  rw [BiosParameterBlock.clusterSectors, firstClusterSector_ok h]
  rfl

theorem sectorsOf_inReach {head : Option Nat} {cs : List Nat} (h : fs.ChainOf head cs) :
    ∀ sector ∈ cs.flatMap fs.sectorsOf, fs.part.InReach sector := by
  intro sector hsector
  obtain ⟨c, hc, hmem⟩ := List.mem_flatMap.mp hsector
  obtain ⟨hlo, hhi⟩ := List.mem_range'_1.mp hmem
  obtain ⟨i, rfl⟩ := Nat.exists_eq_add_of_le hlo
  exact h.data c hc i (Nat.lt_of_add_lt_add_left hhi)

theorem forSectors_upTo {cs : List Nat} (hb : Blind cut f body g (cs.flatMap fs.sectorsOf))
    (hcut : ∀ request e, fs.part.drive.fault request = some e → cut (fail (.ata e)))
    {c fuel : Nat} (h : fs.ChainOf (some c) cs) (hg : fs.NoBad cs) (hf : cs.length ≤ fuel)
    (s : Nat × σ) : ∃ x, fs.forSectors fail body fuel (some c) s = some x ∧
      UpTo cut f x (fold g (cs.dropLast.flatMap fs.sectorsOf) s.2) := by
  rw [fold_flatMap]
  refine forClusters_upTo (fun d hd s => ?_) hcut h hg hf s
  rw [clusterSectors_ok (h.valid d hd).1]
  exact forAll_upTo (fun sector hs => hb sector (List.mem_flatMap.mpr ⟨d, hd, hs⟩)) s

end chains

/-! Whole chains. -/

section whole

variable {fs : Filesystem}

/-- All that `cluster_chain` and `sector_chain` yield. -/
def Filesystem.clusterList (fs : Filesystem) (fuel start request : Nat) :
    Option (Except Fault (List Nat)) :=
  (fs.forClusters id (collect Nat) fuel (some start) (request, [])).map (forget id)

def Filesystem.sectorList (fs : Filesystem) (fuel start request : Nat) :
    Option (Except Fault (List Nat)) :=
  (fs.forSectors id (collect Nat) fuel (some start) (request, [])).map (forget id)

theorem collect_blind (as : List α) :
    Blind (fun _ => False) id (collect α) (fun a bs => .ok (bs ++ [a])) as :=
  fun _ _ _ => .inl rfl

theorem errorFree_cut (he : fs.part.ErrorFree) {cut : AtaError → Prop} (request : Nat)
    (e : AtaError) (h : fs.part.drive.fault request = some e) : cut e := by
  rw [he request] at h
  cases h

theorem fold_collect (as bs : List α) :
    fold (fun a bs => (.ok (bs ++ [a]) : Except Fault (List α))) as bs = .ok (bs ++ as) := by
  induction as generalizing bs with
  | nil => rw [List.append_nil]; rfl
  | cons a as ih =>
    rw [fold_cons]
    change fold _ as (bs ++ [a]) = _
    rw [ih, List.append_assoc]
    rfl

theorem clusterList_chain (he : fs.part.ErrorFree) {start fuel : Nat} {cs : List Nat}
    (h : fs.ChainOf (some start) cs) (hg : fs.NoBad cs) (hf : cs.length ≤ fuel) (request : Nat) :
    fs.clusterList fuel start request = some (.ok cs.dropLast) := by
  obtain ⟨x, hwalk, hx⟩ :=
    forClusters_upTo (collect_blind cs) (errorFree_cut he) h hg hf (request, [])
  rw [Filesystem.clusterList, hwalk, Option.map_some, hx.eq, fold_collect]
  rfl

theorem sectorList_chain (he : fs.part.ErrorFree) {start fuel : Nat} {cs : List Nat}
    (h : fs.ChainOf (some start) cs) (hg : fs.NoBad cs) (hf : cs.length ≤ fuel) (request : Nat) :
    fs.sectorList fuel start request = some (.ok (cs.dropLast.flatMap fs.sectorsOf)) := by
  obtain ⟨x, hwalk, hx⟩ :=
    forSectors_upTo (collect_blind _) (errorFree_cut he) h hg hf (request, [])
  rw [Filesystem.sectorList, hwalk, Option.map_some, hx.eq, fold_collect]
  rfl

/-- What a reader of a directory expects of the two streams: all clusters, all
sectors, and the sectors that `File::read` returns the bytes of. -/
structure WalksAll (fs : Filesystem) (start : Nat) (cs : List Nat) : Prop where
  clusters : ∃ fuel, fs.clusterList fuel start 0 = some (.ok cs)
  sectors : ∃ fuel, fs.sectorList fuel start 0 = some (.ok (cs.flatMap fs.sectorsOf))
  asFile : ∃ fuel sectors, fs.sectorList fuel start 0 = some (.ok sectors) ∧
    ∀ buf, (fs.chainBytes cs).length ≤ buf.length →
      (fs.read 0 (Seek.start start) buf).returned = sectors.flatMap fs.sectorBytes

theorem chain_ne_nil {start : Nat} {cs : List Nat} (h : fs.ChainOf (some start) cs) : cs ≠ [] := by
  rintro rfl
  cases h.chain

theorem not_walksAll {start : Nat} {cs : List Nat} (he : fs.part.ErrorFree)
    (h : fs.ChainOf (some start) cs) (hg : fs.NoBad cs) : ¬ WalksAll fs start cs := by
  intro hw
  obtain ⟨fuel, hall⟩ := hw.clusters
  obtain ⟨r, hr, hforget⟩ := Option.map_eq_some_iff.mp hall
  have hmore := forClusters_mono hr (Nat.le_max_left fuel cs.length)
  have hlast := clusterList_chain he h hg (Nat.le_max_right fuel cs.length) 0
  rw [Filesystem.clusterList, hmore, Option.map_some, hforget] at hlast
  have heq : cs = cs.dropLast := Except.ok.inj (Option.some.inj hlast)
  have hlen := congrArg List.length heq
  have hpos := List.length_pos_iff.mpr (chain_ne_nil h)
  rw [List.length_dropLast] at hlen
  omega

/-- The streams never yield the last cluster of a chain. -/
theorem drops_last_cluster {start : Nat} {cs : List Nat} (he : fs.part.ErrorFree)
    (h : fs.ChainOf (some start) cs) (hg : fs.NoBad cs) :
    (∀ fuel, cs.length ≤ fuel → ∀ request,
      fs.clusterList fuel start request = some (.ok cs.dropLast) ∧
        fs.sectorList fuel start request = some (.ok (cs.dropLast.flatMap fs.sectorsOf))) ∧
      ¬ WalksAll fs start cs :=
  ⟨fun _ hf request => ⟨clusterList_chain he h hg hf request, sectorList_chain he h hg hf request⟩,
    not_walksAll he h hg⟩

theorem drops_last_cluster_small :
    (smallVolume 3 1).clusterList 2 2 0 = some (.ok [2]) ∧ ¬ WalksAll (smallVolume 3 1) 2 [2, 3] := by
  have h := drops_last_cluster (fun _ => rfl) smallVolume_file smallVolume_noBad
  exact ⟨(h.1 2 (Nat.le_refl 2) 0).1, h.2⟩

/-- A directory of two clusters, of which the stream yields one. -/
theorem directory_without_end :
    (smallVolume 3 1).ChainOf (some 2) [2, 3] ∧
      (smallVolume 3 1).clusterList 10 2 0 = some (.ok [2]) ∧
      ¬ WalksAll (smallVolume 3 1) 2 [2, 3] :=
  ⟨smallVolume_file, clusterList_chain (fun _ => rfl) smallVolume_file smallVolume_noBad (by decide) 0,
    not_walksAll (fun _ => rfl) smallVolume_file smallVolume_noBad⟩

end whole

end Crabos.Fat16
