import Neptune.Fat.Dir
import Neptune.Fat.Write

/-!
# Which loops end

`fat_read` and `fat_write` are bounded by the bytes they move and always return.  The loops over
the clusters of a directory follow the table with no count: on a chain that goes round they end
only if something on it makes them return, or a sector cannot be read.

## Main definitions

* `Geometry.chainPrefix` — the first clusters of a chain.
* `Geometry.EndlessSearch`, `Geometry.EndlessListing` — when the loops of `dir_find_entry` and of
  `list_dir` go on forever.

## Main results

* `visitClusters_endless_iff` — when the way through a directory goes on forever.
* `fat_loops_end` — the loops end in all other cases.
-/

namespace Neptune

open DiskM List

namespace Geometry

variable {g : Geometry} {m : ByteMem} {d : Disk} {c : ℕ} {σ β : Type} {v : Visitor σ β} {s : σ}

/-- The first `n` clusters of the chain from `c` on, or all if there are fewer. -/
def chainPrefix (g : Geometry) (m : ByteMem) : ℕ → ℕ → List ℕ
  | _, 0 => []
  | c, n + 1 =>
    c :: if g.fatEntry m c = 0 ∨ isEndCluster (g.fatEntry m c) = true then []
      else chainPrefix g m (g.fatEntry m c) n

/-- The loop over the sectors goes through them all exactly if none of the reads fails and nothing
makes it return. -/
theorem visitSectors_cases (start n i seen : ℕ) (s : σ) (d : Disk) :
    (∃ k t, (visitSectors v none start n i seen s).run d = some (.ok (k, t), d.after n) ∧
      ¬d.FailsBy n ∧ v.fold d.mem (sectorLocs start i n) s = .ok t) ∨
    (∃ b d', (visitSectors v none start n i seen s).run d = some (.error b, d') ∧
      (d.FailsBy n ∨ v.fold d.mem (sectorLocs start i n) s = .error b)) := by
  induction n generalizing i seen s d with
  | zero => exact .inl ⟨seen, s, rfl, by simp [Disk.FailsBy], rfl⟩
  | succ n ih =>
    rw [visitSectors, sectorLocs_succ]
    cases hfail : d.fails with
    | true =>
      right
      rw [run_bind_of (run_readSector_fails hfail)]
      exact ⟨_, _, rfl, .inl (Disk.failsBy_succ.mpr (.inl hfail))⟩
    | false =>
      rw [run_bind_of (run_readSector hfail)]
      dsimp only
      rw [sectorSlots_bytes, visitSlots_none]
      generalize ((List.range 16).map fun e =>
        (⟨(start + i) % 2 ^ 32, e * 32⟩ : DirLoc)) = slots
      cases hfold : v.fold d.mem slots s with
      | error b =>
        right
        exact ⟨b, _, rfl, .inr (Visitor.fold_append_error v hfold)⟩
      | ok t =>
        rw [Disk.failsBy_succ, hfail, Disk.after_succ, Visitor.fold_append_ok v hfold]
        dsimp only [Except.map]
        simpa using ih (i + 1) (seen + slots.length) t d.tick

/-- A pass of the loop over the clusters that goes on: no operation fails, no entry makes it
return, and the chain does not end. -/
def GoesOn (g : Geometry) (v : Visitor σ β) (d : Disk) (c : ℕ) (s t : σ) : Prop :=
  ¬d.FailsBy (g.sectorsPerCluster + 1) ∧ v.fold d.mem (g.clusterLocs c) s = .ok t ∧
    ¬(g.fatEntry d.mem c = 0 ∨ isEndCluster (g.fatEntry d.mem c) = true)

theorem visitClusters_succ (n : ℕ) (d : Disk) (c : ℕ) (s : σ) :
    (∃ t, g.GoesOn v d c s t ∧ (g.visitClusters v (n + 1) c s).run d =
      (g.visitClusters v n (g.fatEntry d.mem c) t).run (d.after (g.sectorsPerCluster + 1))) ∨
    ((∀ t, ¬g.GoesOn v d c s t) ∧ ((g.visitClusters v (n + 1) c s).run d).isSome) := by
  rw [visitClusters]
  rcases visitSectors_cases (g.clusterToSector c) g.sectorsPerCluster 0 0 s d with
    ⟨k, t, hrun, hok, hfold⟩ | ⟨b, d', hrun, hstop⟩
  · rw [run_bind_of hrun]
    dsimp only
    rw [run_bind_of (run_fatNextCluster g c _)]
    have hby : d.FailsBy (g.sectorsPerCluster + 1) ↔ (d.after g.sectorsPerCluster).fails = true := by
      rw [Disk.failsBy_add, or_iff_right hok, Disk.failsBy_succ]
      simp [Disk.FailsBy]
    by_cases hend : (d.after g.sectorsPerCluster).fails = true ∨
        g.fatEntry d.mem c = 0 ∨ isEndCluster (g.fatEntry d.mem c) = true
    · right
      refine ⟨fun u hu => ?_, ?_⟩
      · rcases hend with hend | hend
        · exact hu.1 (hby.mpr hend)
        · exact hu.2.2 hend
      · rw [if_pos]
        · rfl
        · rcases hend with hend | hend
          · simp [hend]
          · rw [Disk.mem_after]
            split
            · exact .inl rfl
            · exact hend
    · obtain ⟨hnofail, hgo⟩ := not_or.mp hend
      left
      refine ⟨t, ⟨mt hby.mp hnofail, hfold, hgo⟩, ?_⟩
      rw [if_neg hnofail, Disk.mem_after, if_neg hgo, Disk.tick, ← Disk.after_after]
      simp [Disk.after]
  · right
    rw [run_bind_of hrun]
    refine ⟨fun t ht => ?_, rfl⟩
    rcases hstop with hstop | hstop
    · exact ht.1 (Disk.failsBy_add.mpr (.inl hstop))
    · have hboth := ht.2.1
      rw [clusterLocs, hstop] at hboth
      cases hboth

theorem chainPrefix_succ {n : ℕ}
    (h : ¬(g.fatEntry m c = 0 ∨ isEndCluster (g.fatEntry m c) = true)) :
    g.chainPrefix m c (n + 1) = c :: g.chainPrefix m (g.fatEntry m c) n := by
  rw [chainPrefix, if_neg h]

/-- A way that goes on forever goes on, and then goes on forever. -/
theorem endless_step (h : ∀ fuel, (g.visitClusters v fuel c s).run d = none) :
    ∃ t, g.GoesOn v d c s t ∧ ∀ fuel, (g.visitClusters v fuel (g.fatEntry d.mem c) t).run
      (d.after (g.sectorsPerCluster + 1)) = none := by
  rcases visitClusters_succ (v := v) 0 d c s with ⟨t, ht, -⟩ | ⟨-, hsome⟩
  · refine ⟨t, ht, fun fuel => ?_⟩
    rcases visitClusters_succ (v := v) fuel d c s with ⟨u, hu, hrun⟩ | ⟨hno, -⟩
    · obtain rfl : t = u := Except.ok.inj (ht.2.1.symm.trans hu.2.1)
      exact hrun.symm.trans (h (fuel + 1))
    · exact absurd ht (hno t)
  · rw [h 1] at hsome
    cases hsome

/-- **When the way through a directory goes on forever**: no operation ever fails, the chain does
not end, and no entry on it makes the function return. -/
theorem visitClusters_endless_iff (d : Disk) (c : ℕ) (s : σ) :
    (∀ fuel, (g.visitClusters v fuel c s).run d = none) ↔
      true ∉ d.faults ∧ ∀ n, (g.chainPrefix d.mem c n).length = n ∧
        ∃ t, v.fold d.mem ((g.chainPrefix d.mem c n).flatMap g.clusterLocs) s = .ok t := by
  constructor
  · intro h
    constructor
    · -- one pass takes at least one operation from the list of faults
      have hfaults : ∀ k, ¬d.FailsBy (k * (g.sectorsPerCluster + 1)) := by
        intro k
        induction k generalizing d c s with
        | zero => simp [Disk.FailsBy]
        | succ k ih =>
          obtain ⟨t, ht, hrest⟩ := endless_step h
          rw [Nat.succ_mul, Nat.add_comm, Disk.failsBy_add]
          exact not_or.mpr ⟨ht.1, ih _ _ _ hrest⟩
      have hall := hfaults d.faults.length
      rwa [Disk.FailsBy, take_of_length_le (Nat.le_mul_of_pos_right _ (Nat.succ_pos _))] at hall
    · intro n
      induction n generalizing d c s with
      | zero => exact ⟨rfl, s, rfl⟩
      | succ n ih =>
        obtain ⟨t, ht, hrest⟩ := endless_step h
        obtain ⟨hlen, u, hu⟩ := ih _ _ _ hrest
        rw [chainPrefix_succ ht.2.2, flatMap_cons, Visitor.fold_append_ok v ht.2.1]
        exact ⟨congrArg Nat.succ hlen, u, hu⟩
  · rintro ⟨hfaults, hall⟩ fuel
    induction fuel generalizing d c s with
    | zero => rfl
    | succ fuel ih =>
      have hgo : ¬(g.fatEntry d.mem c = 0 ∨ isEndCluster (g.fatEntry d.mem c) = true) := by
        intro hend
        have := (hall 2).1
        rw [chainPrefix, if_pos hend] at this
        cases this
      obtain ⟨-, t, ht⟩ := hall 1
      have hone : (g.chainPrefix d.mem c 1).flatMap g.clusterLocs = g.clusterLocs c := by
        rw [chainPrefix_succ hgo, chainPrefix]
        simp
      rw [hone] at ht
      have hgoes : g.GoesOn v d c s t :=
        ⟨fun hf => hfaults (mem_of_mem_take hf), ht, hgo⟩
      rcases visitClusters_succ (v := v) fuel d c s with ⟨u, hu, hrun⟩ | ⟨hno, -⟩
      · obtain rfl : t = u := Except.ok.inj (ht.symm.trans hu.2.1)
        rw [hrun]
        refine ih _ _ _ (fun hf => hfaults (mem_of_mem_drop hf)) fun n => ?_
        obtain ⟨hlen, u, hu⟩ := hall (n + 1)
        rw [chainPrefix_succ hgo] at hlen hu
        rw [flatMap_cons, Visitor.fold_append_ok v ht] at hu
        exact ⟨Nat.succ.inj hlen, u, hu⟩
      · exact absurd hgoes (hno t)

/-! ### The two scans -/

/-- The loop of `dir_find_entry` goes on forever: in a directory other than the root whose chain
does not end, with no end of the directory and no entry that matches on it, and with no sector that
cannot be read. -/
def EndlessSearch (g : Geometry) (d : Disk) (dirCluster : ℕ) (q : Query) : Prop :=
  dirCluster ≠ 0 ∧ true ∉ d.faults ∧ ∀ n, (g.chainPrefix d.mem dirCluster n).length = n ∧
    ∀ c ∈ g.chainPrefix d.mem dirCluster n, ∀ loc ∈ g.clusterLocs c,
      ¬IsLast (loc.entry d.mem) ∧ ¬q.Matches (loc.entry d.mem)

/-- The loop of `list_dir` goes on forever: the same with no end of the directory, and with lines
that never fill the buffer. -/
def EndlessListing (g : Geometry) (d : Disk) (dirCluster : ℕ) (lead : List UInt8) (len : ℕ) : Prop :=
  dirCluster ≠ 0 ∧ true ∉ d.faults ∧ ∀ n, (g.chainPrefix d.mem dirCluster n).length = n ∧
    (∀ c ∈ g.chainPrefix d.mem dirCluster n, ∀ loc ∈ g.clusterLocs c, ¬IsLast (loc.entry d.mem)) ∧
    (listText lead d.mem ((g.chainPrefix d.mem dirCluster n).flatMap g.clusterLocs)).length < len

/-- In the root directory the loops are bounded. -/
theorem visitDir_root_returns (fuel : ℕ) (s : σ) (d : Disk) :
    ((g.visitDir v fuel 0 s).run d).isSome := by
  have hsectors : ∀ n i seen s d, (visitSectors v (some g.rootEntries) g.rootStart n i seen
      s).Ensures d fun _ _ => True := by
    intro n
    induction n with
    | zero => exact fun i seen s d => ensures_pure trivial
    | succ n ih =>
      intro i seen s d
      rw [visitSectors]
      apply DiskM.Ensures.bind (P := fun _ _ => True) ⟨_, _, rfl, trivial⟩
      intro buf d' _
      cases buf with
      | none => exact ensures_pure trivial
      | some buf =>
        dsimp only
        split
        · exact ensures_pure trivial
        · exact ih _ _ _ _
  rw [visitDir, if_pos rfl]
  obtain ⟨r, d', hrun, -⟩ := hsectors g.rootDirSectors 0 0 s d
  rw [run_bind_of hrun]
  cases r <;> rfl

theorem visitDir_returns_iff (dirCluster : ℕ) (s : σ) (d : Disk) :
    (∃ fuel, ((g.visitDir v fuel dirCluster s).run d).isSome) ↔
      ¬(dirCluster ≠ 0 ∧ ∀ fuel, (g.visitClusters v fuel dirCluster s).run d = none) := by
  by_cases hroot : dirCluster = 0
  · subst hroot
    exact iff_of_true ⟨0, visitDir_root_returns 0 s d⟩ fun h => h.1 rfl
  · simp only [visitDir, if_neg hroot]
    simp only [Option.isSome_iff_ne_none, ne_eq, hroot, not_false_eq_true, true_and, not_forall]

/-- **Which loops end.**  The loops of `dir_find_entry` and of `list_dir` end except in the endless
cases; those of `fat_read` and `fat_write` always end. -/
theorem fat_loops_end (g : Geometry) (d : Disk) :
    (∀ dirCluster q, (∃ fuel, ((g.visitDir (Query.visitor q) fuel dirCluster none).run d).isSome) ↔
      ¬g.EndlessSearch d dirCluster q) ∧
    (∀ dirCluster lead len, 0 < len →
      ((∃ fuel, ((g.visitDir (listVisitor lead len) fuel dirCluster []).run d).isSome) ↔
        ¬g.EndlessListing d dirCluster lead len)) ∧
    (∀ file offset len, ((g.fatRead file offset len).run d).isSome) ∧
    (∀ file offset data, ((g.fatWrite file offset data).run d).isSome) := by
  refine ⟨fun dirCluster q => ?_, fun dirCluster lead len hlen => ?_, fun file offset len => ?_,
    fun file offset data => ?_⟩
  · rw [visitDir_returns_iff, visitClusters_endless_iff, EndlessSearch]
    simp only [Query.fold_ok_iff, forall_mem_flatMap]
  · rw [visitDir_returns_iff, visitClusters_endless_iff, EndlessListing]
    simp only [listVisitor_fold_iff _ (show ([] : List UInt8).length < len by simpa using hlen),
      forall_mem_flatMap, nil_append, exists_and_left, exists_eq, and_true]
  · obtain ⟨r, d', hrun, -⟩ := fatRead_returns file offset len d
    rw [hrun]
    rfl
  · obtain ⟨r, d', hrun, -⟩ := fatWrite_returns file offset data d
    rw [hrun]
    rfl

/-- A disk on which cluster 2 is linked to itself and everything else is 0xE5. -/
def selfLinked : ByteMem := sample.setEntry (fun _ => 0xE5) 2 2

/-- A directory of deleted entries in a cluster that is linked to itself: the search for a file A
never ends. -/
theorem selfLinked_search_endless :
    ¬∃ fuel r, (sample.visitDir
      (Query.visitor ⟨[0x41] ++ List.replicate 10 0x20, some false, false⟩) fuel 2 none).run
        (.ok selfLinked) = some r := by
  have hentry : sample.fatEntry selfLinked 2 = 2 := fatEntry_setEntry_self (by decide)
  have hprefix : ∀ n, sample.chainPrefix selfLinked 2 n = List.replicate n 2 := by
    intro n
    induction n with
    | zero => rfl
    | succ n ih =>
      rw [chainPrefix_succ (by rw [hentry]; decide), hentry, ih, replicate_succ]
  have hbyte : ∀ loc ∈ sample.clusterLocs 2, (loc.entry selfLinked).getD 0 0 = 0xE5 := by
    intro loc hloc
    have hsector : loc.sector = 41 := by
      revert loc
      decide
    rw [DirLoc.entry, ByteMem.getD_bytes _ _ (by decide)]
    refine ByteMem.store_apply_of_not_mem _ ?_
    have haddr : sample.entryAddr 2 = 516 := by decide
    rw [DirLoc.addr, hsector, haddr]
    omega
  rintro ⟨fuel, r, hrun⟩
  rw [visitDir, if_neg (by decide)] at hrun
  refine absurd ((visitClusters_endless_iff (.ok selfLinked) 2 none).mpr ⟨by simp, fun n => ?_⟩ fuel)
    (by rw [hrun]; exact Option.some_ne_none r)
  rw [Disk.mem_ok, hprefix, Query.fold_ok_iff, forall_mem_flatMap]
  refine ⟨length_replicate, fun c hc loc hloc => ?_⟩
  obtain rfl := eq_of_mem_replicate hc
  have hfirst := hbyte loc hloc
  refine ⟨fun hlast => ?_, fun hmatch => hmatch.1 hfirst⟩
  rw [IsLast, hfirst] at hlast
  cases hlast

end Geometry

end Neptune
