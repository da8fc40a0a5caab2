import Mathlib.Data.List.Basic
import Neptune.Lib.Runs

/-!
# Block devices and their cache

`block.c`: a direct-mapped cache of 16 sectors in front of the device drivers.
Reads and writes of one sector go through it, all others go to the device.  Both
drivers (`ramdisk_*` and `ata_*`) check the same things before they transfer;
beyond that an operation may fail, and then leaves the medium as it was.

A buffer is a function from offsets to bytes, or `none` for `NULL`.

## Main definitions

* `BlockState.blockRead`, `BlockState.blockWrite` — the calls.
* `BlockState.Coherent`, `BlockState.Transparent` — what a cache should be.
* `BlockState.NoStale` — the steps that keep it so.

## Main results

* `cache_transparent` — over every run of such steps, reads return what the device
  holds, with 512-byte sectors change nothing else of the buffer, and every valid
  entry equals its sector.
-/

namespace Neptune

open Function Option

/-- The bytes of a caller's buffer. -/
abbrev Buffer := ℕ → UInt8

/-- `struct block_device`: its geometry, and which operations it has. -/
structure BlockDevice where
  sectorSize : ℕ
  sectors : ℕ
  hasRead : Bool
  hasWrite : Bool
  deriving DecidableEq, Repr

/-- `struct block_cache_entry`. -/
structure CacheEntry where
  dev : Option ℕ
  lba : ℕ
  data : Buffer
  valid : Bool

/-- `BLOCK_CACHE_ENTRIES`. -/
def blockCacheEntries : ℕ := 16

/-- `RAMDISK_SECTOR_SIZE`, the size of a cache entry's data. -/
def ramdiskSectorSize : ℕ := 512

/-- The devices, what is on their media, and the cache. -/
structure BlockState where
  devices : ℕ → BlockDevice
  medium : ℕ → Buffer
  cache : ℕ → CacheEntry

namespace BlockState

/-- `block_cache_reset`. -/
def blockCacheReset (s : BlockState) : BlockState :=
  { s with cache := fun i => ⟨none, 0, (s.cache i).data, false⟩ }

/-- `block_cache_lookup`. -/
def blockCacheLookup (s : BlockState) (dev lba : ℕ) : Option CacheEntry :=
  let entry := s.cache (lba % blockCacheEntries)
  if entry.valid = true ∧ entry.dev = some dev ∧ entry.lba = lba then some entry else none

/-- The first 512 bytes of one buffer over another. -/
def copySector (src dst : Buffer) : Buffer := fun i => if i < ramdiskSectorSize then src i else dst i

/-- `block_cache_store`. -/
def blockCacheStore (s : BlockState) (dev lba : ℕ) (buf : Buffer) : BlockState :=
  let idx := lba % blockCacheEntries
  let entry : CacheEntry := ⟨some dev, lba, copySector buf (s.cache idx).data, true⟩
  { s with cache := update s.cache idx entry }

/-- The checks of `ramdisk_read`, `ramdisk_write`, `ata_read` and `ata_write`. -/
def inRange (d : BlockDevice) (lba count : ℕ) : Bool :=
  decide (count ≠ 0 ∧ lba < d.sectors ∧ count ≤ d.sectors - lba)

/-- `dev->read`: the buffer afterwards if it succeeds.  `fails` says that the
device reports an error of its own. -/
def devRead (s : BlockState) (fails : Bool) (dev lba count : ℕ) (buf : Option Buffer) :
    Option Buffer :=
  match buf with
  | none => none
  | some dst =>
    let d := s.devices dev
    if inRange d lba count && !fails then
      some fun i =>
        if i < count * d.sectorSize then s.medium dev (lba * d.sectorSize + i) else dst i
    else none

/-- `dev->write`: the state afterwards if it succeeds. -/
def devWrite (s : BlockState) (fails : Bool) (dev lba count : ℕ) (buf : Option Buffer) :
    Option BlockState :=
  match buf with
  | none => none
  | some src =>
    let d := s.devices dev
    if inRange d lba count && !fails then
      let start := lba * d.sectorSize
      some { s with medium := update s.medium dev fun i =>
        if start ≤ i ∧ i < start + count * d.sectorSize then src (i - start) else s.medium dev i }
    else none

/-- `block_read`: the buffer afterwards if it returns 0, and the state. -/
def blockRead (s : BlockState) (fails : Bool) (dev : Option ℕ) (lba count : ℕ)
    (buf : Option Buffer) : Option Buffer × BlockState :=
  match dev with
  | none => (none, s)
  | some dev =>
    if (s.devices dev).hasRead then
      match (if count = 1 then buf else none), s.blockCacheLookup dev lba with
      | some dst, some cached => (some (copySector cached.data dst), s)
      | one, _ =>
        match s.devRead fails dev lba count buf with
        | none => (none, s)
        | some out =>
          (some out, if one.isSome then s.blockCacheStore dev lba out else s)
    else (none, s)

/-- `block_write`: the state afterwards, and whether it returns 0. -/
def blockWrite (s : BlockState) (fails : Bool) (dev : Option ℕ) (lba count : ℕ)
    (buf : Option Buffer) : Bool × BlockState :=
  match dev with
  | none => (false, s)
  | some dev =>
    if (s.devices dev).hasWrite then
      match s.devWrite fails dev lba count buf, buf with
      | some s', some src =>
        (true, if count = 1 then s'.blockCacheStore dev lba src else s')
      | _, _ => (false, s)
    else (false, s)

/-! ### Runs -/

inductive Op
  | read (fails : Bool) (dev : Option ℕ) (lba count : ℕ) (buf : Option Buffer)
  | write (fails : Bool) (dev : Option ℕ) (lba count : ℕ) (buf : Option Buffer)
  /-- `block_set_default`. -/
  | setDefault

def exec (s : BlockState) : Op → BlockState
  | .read fails dev lba count buf => (s.blockRead fails dev lba count buf).2
  | .write fails dev lba count buf => (s.blockWrite fails dev lba count buf).2
  | .setDefault => s.blockCacheReset

/-- The state after `block_init`, for any devices with anything on them. -/
def Booted (s : BlockState) : Prop := ∀ i, (s.cache i).valid = false

/-- The states of runs whose operations all meet the condition `ok`. -/
def ReachableIf (ok : BlockState → Op → Prop) : BlockState → Prop :=
  Reach Booted fun s s' => ∃ op, ok s op ∧ s' = s.exec op

/-! ### Transparency -/

/-- An entry's data are the bytes of a sector on the medium. -/
def SectorIs (s : BlockState) (data : Buffer) (dev lba : ℕ) : Prop :=
  ∀ i < (s.devices dev).sectorSize, data i = s.medium dev (lba * (s.devices dev).sectorSize + i)

/-- Every valid entry equals the sector it names. -/
def Coherent (s : BlockState) : Prop :=
  ∀ i < blockCacheEntries, (s.cache i).valid = true →
    ∃ dev, (s.cache i).dev = some dev ∧ s.SectorIs (s.cache i).data dev (s.cache i).lba

/-- A read that returns 0 returns the bytes of the device, and leaves the rest of
the buffer as it was: a hit copies 512 bytes whatever the size of a sector, so for
single sectors only if that is their size. -/
def Transparent (s : BlockState) : Prop :=
  ∀ fails dev lba count buf out, (s.blockRead fails (some dev) lba count buf).1 = some out →
    (∀ i < count * (s.devices dev).sectorSize,
      out i = s.medium dev (lba * (s.devices dev).sectorSize + i)) ∧
    ((count = 1 → (s.devices dev).sectorSize = ramdiskSectorSize) →
      ∀ dst, buf = some dst → ∀ i, count * (s.devices dev).sectorSize ≤ i → out i = dst i)

/-- The two conditions: a sector that goes through the cache fits into an entry,
and a write of several sectors leaves out those that are cached with other data. -/
def NoStale (s : BlockState) : Op → Prop
  | .read _ (some dev) _ count _ => count = 1 → (s.devices dev).sectorSize ≤ ramdiskSectorSize
  | .write _ (some dev) lba count (some src) =>
    let size := (s.devices dev).sectorSize
    (count = 1 → size ≤ ramdiskSectorSize) ∧
    (count ≠ 1 → ∀ i < blockCacheEntries, (s.cache i).valid = true → (s.cache i).dev = some dev →
      lba ≤ (s.cache i).lba → (s.cache i).lba < lba + count →
        ∀ j < size, (s.cache i).data j = src (((s.cache i).lba - lba) * size + j))
  | _ => True

/-! ### What the operations do -/

variable {s s' : BlockState}

/-- A successful read of the device. -/
theorem devRead_spec {fails : Bool} {dev lba count : ℕ} {buf : Option Buffer} {out : Buffer}
    (h : s.devRead fails dev lba count buf = some out) :
    (∀ i < count * (s.devices dev).sectorSize,
      out i = s.medium dev (lba * (s.devices dev).sectorSize + i)) ∧
    ∀ dst, buf = some dst → ∀ i, count * (s.devices dev).sectorSize ≤ i → out i = dst i := by
  unfold devRead at h
  split at h
  · cases h
  · next dst =>
    dsimp only at h
    split at h
    · obtain rfl := some.inj h
      refine ⟨fun i hi => if_pos hi, fun dst' hdst i hi => ?_⟩
      rw [← some.inj hdst]
      exact if_neg (Nat.not_lt.mpr hi)
    · cases h

/-- A successful write changes the medium, and only the sectors it names. -/
theorem devWrite_spec {fails : Bool} {dev lba count : ℕ} {src : Buffer}
    (h : s.devWrite fails dev lba count (some src) = some s') :
    s' = { s with medium := s'.medium } ∧ (∀ d, d ≠ dev → s'.medium d = s.medium d) ∧
      ∀ i, s'.medium dev i =
        if lba * (s.devices dev).sectorSize ≤ i ∧
            i < lba * (s.devices dev).sectorSize + count * (s.devices dev).sectorSize then
          src (i - lba * (s.devices dev).sectorSize)
        else s.medium dev i := by
  unfold devWrite at h
  dsimp only at h
  split at h
  · obtain rfl := some.inj h
    refine ⟨rfl, fun d hd => update_of_ne hd _ _, fun i => ?_⟩
    exact congrFun (update_self dev _ s.medium) i
  · cases h

/-- A sector that a write leaves out. -/
theorem sectorIs_write_of_ne {fails : Bool} {dev lba count : ℕ} {src data : Buffer} {dev' lba' : ℕ}
    (h : s.devWrite fails dev lba count (some src) = some s')
    (hne : dev' ≠ dev ∨ lba' < lba ∨ lba + count ≤ lba') (hd : s.SectorIs data dev' lba') :
    s'.SectorIs data dev' lba' := by
  obtain ⟨heq, hother, hmed⟩ := devWrite_spec h
  have hdev : s'.devices = s.devices := by rw [heq]
  intro i hi
  rw [hdev] at hi ⊢
  rw [hd i hi]
  rcases eq_or_ne dev' dev with rfl | hd'
  · rw [hmed, if_neg]
    rintro ⟨hlo, hhi⟩
    rcases hne.resolve_left (fun h => h rfl) with hlt | hle
    · -- the sector ends where the first sector written begins
      have := Nat.mul_le_mul_right (s.devices dev').sectorSize (Nat.succ_le_of_lt hlt)
      rw [Nat.succ_mul] at this
      omega
    · have := Nat.mul_le_mul_right (s.devices dev').sectorSize hle
      rw [Nat.add_mul] at this
      omega
  · rw [hother dev' hd']

/-- A sector that a write covers. -/
theorem sectorIs_write {fails : Bool} {dev lba count : ℕ} {src data : Buffer} {lba' : ℕ}
    (h : s.devWrite fails dev lba count (some src) = some s') (hlo : lba ≤ lba')
    (hhi : lba' < lba + count) (hd : ∀ j < (s.devices dev).sectorSize,
      data j = src ((lba' - lba) * (s.devices dev).sectorSize + j)) :
    s'.SectorIs data dev lba' := by
  obtain ⟨heq, -, hmed⟩ := devWrite_spec h
  have hdev : s'.devices = s.devices := by rw [heq]
  intro i hi
  rw [hdev] at hi ⊢
  obtain ⟨k, rfl⟩ := Nat.exists_eq_add_of_le hlo
  have hk := Nat.mul_le_mul_right (s.devices dev).sectorSize (Nat.succ_le_of_lt (show k < count by omega))
  rw [Nat.succ_mul] at hk
  rw [hd i hi, hmed, Nat.add_mul, if_pos ⟨by omega, by omega⟩, Nat.add_sub_cancel_left]
  congr 1
  omega

/-! ### The invariant -/

/-- An entry is in the slot of its sector, which fits into it, and equals it. -/
structure EntryOk (s : BlockState) (i : ℕ) : Prop where
  slot : (s.cache i).lba % blockCacheEntries = i
  dev : ∃ dev, (s.cache i).dev = some dev ∧ (s.devices dev).sectorSize ≤ ramdiskSectorSize ∧
    s.SectorIs (s.cache i).data dev (s.cache i).lba

def CacheOk (s : BlockState) : Prop :=
  ∀ i < blockCacheEntries, (s.cache i).valid = true → s.EntryOk i

theorem CacheOk.coherent (h : s.CacheOk) : s.Coherent := by
  intro i hi hv
  obtain ⟨dev, hd, -, hs⟩ := (h i hi hv).dev
  exact ⟨dev, hd, hs⟩

theorem copySector_of_lt {src dst : Buffer} {i : ℕ} (h : i < ramdiskSectorSize) :
    copySector src dst i = src i := if_pos h

/-- Storing a sector's own bytes in its slot; what the slot held need not be right. -/
theorem cacheOk_store {dev lba : ℕ} {buf : Buffer}
    (h : ∀ i < blockCacheEntries, i ≠ lba % blockCacheEntries → (s.cache i).valid = true → s.EntryOk i)
    (hsize : (s.devices dev).sectorSize ≤ ramdiskSectorSize) (hs : s.SectorIs buf dev lba) :
    (s.blockCacheStore dev lba buf).CacheOk := by
  intro i hi hv
  rcases eq_or_ne i (lba % blockCacheEntries) with rfl | hne
  · have hc : (s.blockCacheStore dev lba buf).cache (lba % blockCacheEntries) =
        ⟨some dev, lba, copySector buf (s.cache (lba % blockCacheEntries)).data, true⟩ :=
      update_self _ _ _
    refine ⟨by rw [hc], dev, by rw [hc], hsize, fun j hj => ?_⟩
    rw [hc]
    exact (copySector_of_lt (Nat.lt_of_lt_of_le hj hsize)).trans (hs j hj)
  · have hc : (s.blockCacheStore dev lba buf).cache i = s.cache i := update_of_ne hne _ _
    rw [hc] at hv
    obtain ⟨hslot, d, hd, hsz, hsec⟩ := h i hi hne hv
    exact ⟨by rw [hc]; exact hslot, d, by rw [hc]; exact hd, hsz, by rw [hc]; exact hsec⟩

/-- The outcomes of a read: a failure, a hit, or a read of the device, which is
stored if it was one sector. -/
theorem blockRead_cases (s : BlockState) (fails : Bool) (dev lba count : ℕ) (buf : Option Buffer) :
    s.blockRead fails (some dev) lba count buf = (none, s) ∨
    (∃ cached dst, count = 1 ∧ buf = some dst ∧ s.blockCacheLookup dev lba = some cached ∧
      s.blockRead fails (some dev) lba count buf = (some (copySector cached.data dst), s)) ∨
    ∃ out, s.devRead fails dev lba count buf = some out ∧
      (s.blockRead fails (some dev) lba count buf = (some out, s) ∨ count = 1 ∧
        s.blockRead fails (some dev) lba count buf = (some out, s.blockCacheStore dev lba out)) := by
  unfold blockRead
  dsimp only
  have hone : ∀ {dst : Buffer}, (if count = 1 then buf else none) = some dst →
      count = 1 ∧ buf = some dst := by
    intro dst h
    split at h
    · next hc => exact ⟨hc, h⟩
    · cases h
  split
  · split
    · next dst cached hsome hlook =>
      obtain ⟨hc, hbuf⟩ := hone hsome
      exact .inr (.inl ⟨cached, dst, hc, hbuf, hlook, rfl⟩)
    · cases hd : s.devRead fails dev lba count buf with
      | none => exact .inl rfl
      | some out =>
        refine .inr (.inr ⟨out, rfl, ?_⟩)
        cases hbuf : (if count = 1 then buf else none) with
        | none => exact .inl rfl
        | some dst => exact .inr ⟨(hone hbuf).1, rfl⟩
  · exact .inl rfl

theorem blockCacheLookup_spec {dev lba : ℕ} {entry : CacheEntry}
    (h : s.blockCacheLookup dev lba = some entry) :
    entry = s.cache (lba % blockCacheEntries) ∧ entry.valid = true ∧ entry.dev = some dev ∧
      entry.lba = lba := by
  unfold blockCacheLookup at h
  dsimp only at h
  split at h
  · next hc => exact some.inj h ▸ ⟨rfl, hc⟩
  · cases h

theorem slot_lt (lba : ℕ) : lba % blockCacheEntries < blockCacheEntries := Nat.mod_lt _ (by decide)

/-- With right entries every read is transparent. -/
theorem CacheOk.transparent (h : s.CacheOk) : s.Transparent := by
  intro fails dev lba count buf out hout
  rcases blockRead_cases s fails dev lba count buf with hr | ⟨cached, dst, rfl, hbuf, hlook, hr⟩ |
    ⟨out', hd, hr⟩
  · rw [hr] at hout; cases hout
  · -- a hit: the entry is right, and the sector fits into it
    rw [hr] at hout
    obtain rfl := some.inj hout
    obtain ⟨rfl, hv, hdev, hlba⟩ := blockCacheLookup_spec hlook
    obtain ⟨-, d, hd, hsize, hsec⟩ := h _ (slot_lt lba) hv
    obtain rfl := some.inj (hdev.symm.trans hd)
    rw [Nat.one_mul]
    refine ⟨fun i hi => ?_, fun hfull dst' hdst i hi => ?_⟩
    · rw [copySector_of_lt (Nat.lt_of_lt_of_le hi hsize), hsec i hi, hlba]
    · rw [hfull rfl] at hi
      rw [← some.inj (hbuf.symm.trans hdst)]
      exact if_neg (Nat.not_lt.mpr hi)
  · have hout' : out' = out := by
      rcases hr with hr | ⟨-, hr⟩ <;> rw [hr] at hout <;> exact some.inj hout
    obtain ⟨hin, hrest⟩ := devRead_spec (hout' ▸ hd)
    exact ⟨hin, fun _ => hrest⟩

theorem CacheOk.read (h : s.CacheOk) {fails : Bool} {dev : Option ℕ} {lba count : ℕ}
    {buf : Option Buffer} (hok : s.NoStale (.read fails dev lba count buf)) :
    (s.blockRead fails dev lba count buf).2.CacheOk := by
  cases dev with
  | none => exact h
  | some dev =>
    rcases blockRead_cases s fails dev lba count buf with hr | ⟨cached, dst, -, -, -, hr⟩ |
      ⟨out, hd, hr | ⟨rfl, hr⟩⟩
    · rw [hr]; exact h
    · rw [hr]; exact h
    · rw [hr]; exact h
    · rw [hr]
      refine cacheOk_store (fun i hi _ hv => h i hi hv) (hok rfl) fun i hi => ?_
      exact (devRead_spec hd).1 i (by rwa [Nat.one_mul])

theorem CacheOk.write (h : s.CacheOk) {fails : Bool} {dev : Option ℕ} {lba count : ℕ}
    {buf : Option Buffer} (hok : s.NoStale (.write fails dev lba count buf)) :
    (s.blockWrite fails dev lba count buf).2.CacheOk := by
  unfold blockWrite
  split
  · exact h
  · next dev =>
    split
    · split
      · next s' src hw =>
        obtain ⟨heq, -⟩ := devWrite_spec hw
        have hcache : s'.cache = s.cache := by rw [heq]
        have hdevs : s'.devices = s.devices := by rw [heq]
        -- an entry is still right if it is for another sector, or for the same data
        have hentry : ∀ i < blockCacheEntries, (s'.cache i).valid = true →
            (∀ d, (s.cache i).dev = some d → s.SectorIs (s.cache i).data d (s.cache i).lba →
              s'.SectorIs (s.cache i).data d (s.cache i).lba) → s'.EntryOk i := by
          intro i hi hv hkeep
          rw [hcache] at hv
          obtain ⟨hslot, d, hd, hsize, hsec⟩ := h i hi hv
          exact ⟨by rw [hcache]; exact hslot, d, by rw [hcache]; exact hd,
            by rw [hdevs]; exact hsize, by rw [hcache]; exact hkeep d hd hsec⟩
        obtain ⟨hone, hmany⟩ := hok
        dsimp only
        split
        · next hc =>
          subst hc
          refine cacheOk_store (fun i hi hne hv => hentry i hi hv fun d hd hsec => ?_)
            (by rw [hdevs]; exact hone rfl)
            (sectorIs_write hw (Nat.le_refl _) (Nat.lt_succ_self _) fun j _ => by
              rw [Nat.sub_self, Nat.zero_mul, Nat.zero_add])
          refine sectorIs_write_of_ne hw (.inr ?_) hsec
          have hslot := (h i hi (hcache ▸ hv)).slot
          have hlba : (s.cache i).lba ≠ lba := fun he => hne (by rw [← hslot, he])
          omega
        · next hc =>
          intro i hi hv
          refine hentry i hi hv fun d hd hsec => ?_
          by_cases hin : d = dev ∧ lba ≤ (s.cache i).lba ∧ (s.cache i).lba < lba + count
          · obtain ⟨rfl, hlo, hhi⟩ := hin
            exact sectorIs_write hw hlo hhi (hmany hc i hi (hcache ▸ hv) hd hlo hhi)
          · refine sectorIs_write_of_ne hw ?_ hsec
            by_cases hd' : d = dev
            · exact .inr (by have : ¬ _ := fun h => hin ⟨hd', h⟩; omega)
            · exact .inl hd'
      · exact h
    · exact h

/-- **The cache is transparent**, in every run in which single sectors fit into a
cache entry and writes of several sectors leave out the sectors that are cached
with other data. -/
theorem cache_transparent (h : ReachableIf NoStale s) : s.Coherent ∧ s.Transparent := by
  have hok : s.CacheOk := by
    refine Reach.invariant h (fun s hb i _ hv => absurd hv (by rw [hb i]; decide)) ?_
    rintro s s' hi ⟨op, hop, rfl⟩
    cases op with
    | read => exact hi.read hop
    | write => exact hi.write hop
    | setDefault => exact fun i _ hv => absurd hv Bool.false_ne_true
  exact ⟨hok.coherent, hok.transparent⟩

/-- An empty cache in front of a ramdisk full of zeroes. -/
def blank : BlockState where
  devices := fun _ => ⟨512, 8192, true, true⟩
  medium := fun _ _ => 0
  cache := fun _ => ⟨none, 0, fun _ => 0, false⟩

/-- Sector 5 is read and then written. -/
def rewritten : BlockState :=
  (blank.exec (.read false (some 0) 5 1 (some fun _ => 1))).exec
    (.write false (some 0) 5 1 (some fun _ => 7))

theorem cache_transparent_rewritten :
    (rewritten.cache 5).valid = true ∧ rewritten.Coherent ∧ rewritten.Transparent := by
  have hblank : ReachableIf NoStale blank := .init fun _ => rfl
  have hread := hblank.step ⟨.read false (some 0) 5 1 (some fun _ => 1), fun _ => by decide, rfl⟩
  have hwrite : ReachableIf NoStale rewritten := hread.step
    ⟨.write false (some 0) 5 1 (some fun _ => 7), ⟨fun _ => by decide, fun h => absurd rfl h⟩, rfl⟩
  exact ⟨by decide, cache_transparent hwrite⟩

/-- Sector 5 is read, and then written together with sector 4. -/
def overwritten : BlockState :=
  (blank.exec (.read false (some 0) 5 1 (some fun _ => 1))).exec
    (.write false (some 0) 4 2 (some fun _ => 7))

theorem cache_stale : ReachableIf (fun _ _ => True) overwritten ∧ ¬ overwritten.Coherent ∧
    ¬ overwritten.Transparent := by
  have hblank : ReachableIf (fun _ _ => True) blank := .init fun _ => rfl
  refine ⟨(hblank.step ⟨_, trivial, rfl⟩).step ⟨_, trivial, rfl⟩, fun h => ?_, fun h => ?_⟩
  · obtain ⟨dev, hdev, hsec⟩ := h 5 (by decide) (by decide)
    obtain rfl : 0 = dev := some.inj hdev
    exact absurd (hsec 0 (by decide)) (by decide)
  · have hout := (h false 0 5 1 (some fun _ => 1) _ rfl).1 0 (by decide)
    exact absurd hout (by decide)

end BlockState

end Neptune
