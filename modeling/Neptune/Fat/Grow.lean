import Neptune.Fat.Chain

/-!
# How a file grows

All `fat_write` does to a volume, the directory entry apart, is to extend the chain of the file and
to change the bytes of the chain's clusters.  `Geometry.Grows` says so; it holds of every step of
the loops and is transitive, so it holds of whole runs.

## Main definitions

* `Geometry.Grows` — a chain is extended, and nothing outside it changes.

## Main results

* `advance_spec` — the next cluster, from any place of a chain.
* `writeSkip_spec`, `writeClusters_spec` — the loops of `fat_write` on a disk without faults.
-/

namespace Neptune

open ByteMem DiskM List Nat

namespace Geometry

variable {g : Geometry} {m m' m'' : ByteMem} {c n a s : ℕ} {l l' l'' pre post : List ℕ}

/-- The chain from `s` on is extended from `l` to `l'`; the table changes at the cells of `l'` only,
and outside the table only the bytes of these clusters do. -/
structure Grows (g : Geometry) (m m' : ByteMem) (s : ℕ) (l l' : List ℕ) : Prop where
  sound : SoundTable (g.link m')
  chain : Chain (g.link m') s l'
  isPrefix : ∃ new, l' = l ++ new
  others : ∀ c, c ∉ l' → g.link m' c = g.link m c
  fresh : ∀ c ∈ l', c ∉ l → g.link m c = .free
  used : ∀ c, g.link m c ≠ .free → g.link m' c ≠ .free
  heads : ∀ c, g.link m c ≠ .free → IsHead (g.link m) c → IsHead (g.link m') c
  count : g.freeCount m' + l'.length = g.freeCount m + l.length
  frame : ∀ a, (g.InTable a → l' = l) → (∀ c ∈ l', ¬g.InCluster c a) → m' a = m a

namespace Grows

theorem refl (ht : SoundTable (g.link m)) (hl : Chain (g.link m) s l) : g.Grows m m s l l where
  sound := ht
  chain := hl
  isPrefix := ⟨[], (append_nil l).symm⟩
  others _ _ := rfl
  fresh _ hc hc' := absurd hc hc'
  used _ h := h
  heads _ _ h := h
  count := rfl
  frame _ _ _ := rfl

theorem subset (h : g.Grows m m' s l l') : ∀ c ∈ l, c ∈ l' := by
  obtain ⟨new, rfl⟩ := h.isPrefix
  exact fun c hc => mem_append_left new hc

theorem trans (h : g.Grows m m' s l l') (h' : g.Grows m' m'' s l' l'') : g.Grows m m'' s l l'' where
  sound := h'.sound
  chain := h'.chain
  isPrefix := by
    obtain ⟨new, rfl⟩ := h.isPrefix
    obtain ⟨new', rfl⟩ := h'.isPrefix
    exact ⟨new ++ new', append_assoc _ _ _⟩
  others c hc := (h'.others c hc).trans (h.others c (mt (h'.subset c) hc))
  fresh c hc hcl := by
    by_cases hcl' : c ∈ l'
    · exact h.fresh c hcl' hcl
    · rw [← h.others c hcl']
      exact h'.fresh c hc hcl'
  used c hc := h'.used c (h.used c hc)
  heads c hc hhead := h'.heads c (h.used c hc) (h.heads c hc hhead)
  count := by
    have h1 := h.count
    have h2 := h'.count
    omega
  frame a htable ha := by
    have hlen : l'' = l → l'' = l' ∧ l' = l := by
      intro he
      obtain ⟨new, rfl⟩ := h.isPrefix
      obtain ⟨new', rfl⟩ := h'.isPrefix
      obtain ⟨rfl, rfl⟩ : new = [] ∧ new' = [] := by simpa using he
      simp
    exact (h'.frame a (fun ht => (hlen (htable ht)).1) ha).trans
      (h.frame a (fun ht => (hlen (htable ht)).2) fun c hc => ha c (h'.subset c hc))

/-- Bytes written into a cluster of the chain. -/
theorem blit (hg : g.Regular) (ht : SoundTable (g.link m)) (hl : Chain (g.link m) s l) (hc : c ∈ l)
    {off : ℕ} {bytes : List UInt8} (hfit : off + bytes.length ≤ g.clusterSize) :
    g.Grows m (m.blit (g.clusterAddr c + off) bytes) s l l := by
  have hrange := inRange_of_chain hl c hc
  have houtside : ∀ a, ¬g.InCluster c a → m.blit (g.clusterAddr c + off) bytes a = m a := by
    intro a ha
    refine m.blit_apply_of_not_mem fun hin => ha ?_
    rw [InCluster]
    omega
  have hlink : g.link (m.blit (g.clusterAddr c + off) bytes) = g.link m :=
    hg.link_congr fun a ha => houtside a fun hin => hg.not_inTable hrange hin ha
  have hfree : g.freeCount (m.blit (g.clusterAddr c + off) bytes) = g.freeCount m := by
    rw [freeCount, freeCount, hlink]
  refine ⟨hlink ▸ ht, hlink ▸ hl, ⟨[], (append_nil l).symm⟩, fun _ _ => by rw [hlink],
    fun _ h h' => absurd h h', fun _ h => hlink ▸ h, fun _ _ h => hlink ▸ h, by rw [hfree],
    fun a _ ha => houtside a (ha c hc)⟩

/-- A new cluster at the end of the chain. -/
theorem extend (hg : g.Regular) (ht : SoundTable (g.link m)) (hl : Chain (g.link m) s l) (hc : c ∈ l)
    (hlast : g.link m c = .last) (hn : g.InRange n) (hfree : g.link m n = .free) :
    g.Grows m (g.extendAt m c n) s l (l ++ [n]) := by
  have hrange := inRange_of_chain hl c hc
  have hlink := link_extend (m := m) hg hrange hn
  have hnc : n ≠ c := Link.ne_of_last_of_free hlast hfree
  have hcl : c ∈ l ++ [n] := mem_append_left _ hc
  have hnl : n ∈ l ++ [n] := by simp
  have hused : ∀ x, g.link m x ≠ .free → g.link (g.extendAt m c n) x ≠ .free := by
    intro x hx
    rw [hlink]
    by_cases hxc : x = c
    · simp [hxc, Link.extend_end]
    · rwa [Link.extend_of_ne hxc fun he => hx (he ▸ hfree)]
  refine ⟨hlink ▸ ht.extend hlast hfree, hlink ▸ hl.extend_mem hc hlast hfree, ⟨[n], rfl⟩,
    fun x hx => ?_, fun x hx hxl => ?_, hused, fun x hx hhead => ?_, ?_, fun a htable _ => ?_⟩
  · have hxc : x ≠ c := by
      rintro rfl
      exact hx hcl
    have hxn : x ≠ n := by
      rintro rfl
      exact hx hnl
    rw [hlink, Link.extend_of_ne hxc hxn]
  · rcases mem_append.mp hx with hx | hx
    · exact absurd hx hxl
    · rw [mem_singleton.mp hx]
      exact hfree
  · rw [hlink]
    exact hhead.extend (fun he => hx (he ▸ hfree)) hlast hfree
  · have hcount : g.freeCount (g.extendAt m c n) + 1 = g.freeCount m := by
      refine freeCount_of_update hn hfree ?_ fun x hx => ?_
      · rw [hlink, Link.extend_new hnc]
        nofun
      · by_cases hxc : x = c
        · simp [hxc, hlink, Link.extend_end, hlast]
        · rw [hlink, Link.extend_of_ne hxc hx]
    rw [length_append, length_singleton]
    omega
  · refine hg.extendAt_apply hrange hn fun hin => ?_
    have := congrArg List.length (htable hin)
    simp at this

end Grows

/-- The next cluster from any place of a chain: a new one at its end, if there is one. -/
theorem advance_spec (hg : g.Regular) (ht : SoundTable (g.link m))
    (hl : Chain (g.link m) s (pre ++ c :: post)) :
    (post = [] ∧ g.firstFree m = none ∧ (g.advance c).run (.ok m) = some (none, .ok m)) ∨
    ∃ c' m' post', (g.advance c).run (.ok m) = some (some c', .ok m') ∧
      g.Grows m m' s (pre ++ c :: post) (pre ++ [c] ++ c' :: post') ∧
      (∀ a, ¬g.InTable a → m' a = m a) ∧ (post = c' :: post' ∨ post = [] ∧ post' = []) := by
  have hrest := hl.split
  cases hrest with
  | last hlast =>
    have hmem : c ∈ pre ++ [c] := by simp
    cases hfree : g.firstFree m with
    | none => exact .inl ⟨rfl, rfl, hg.run_advance_full hlast hfree⟩
    | some n =>
      obtain ⟨hn, hnfree⟩ := firstFree_some hfree
      exact .inr ⟨n, _, [], hg.run_advance_new hlast hfree, Grows.extend hg ht hl hmem hlast hn hnfree,
        fun a ha => hg.extendAt_apply (inRange_of_chain hl c hmem) hn ha, .inr ⟨rfl, rfl⟩⟩
  | next hnext hpost =>
    obtain ⟨post', rfl⟩ := hpost.eq_cons
    refine .inr ⟨_, m, post', run_advance_next hnext, ?_, fun _ _ => rfl, .inl rfl⟩
    rw [append_assoc]
    exact Grows.refl ht hl

/-- The loop that skips clusters walks to the cluster of the offset, extending the chain. -/
theorem writeSkip_spec (hg : g.Regular) {k skip : ℕ} (hk : skip < k) (ht : SoundTable (g.link m))
    (hl : Chain (g.link m) s (pre ++ c :: post)) :
    ∃ r m' l', (g.writeSkip k c skip).run (.ok m) = some (r, .ok m') ∧
      g.Grows m m' s (pre ++ c :: post) l' ∧ (∀ a, ¬g.InTable a → m' a = m a) ∧
      (l' = pre ++ c :: post ∨ (l'.length - 1) * g.clusterSize ≤ pre.length * g.clusterSize + skip) ∧
      (r = none ∧ g.firstFree m' = none ∧
          l'.length * g.clusterSize ≤ pre.length * g.clusterSize + skip ∨
        ∃ pre' c' post' skip', r = some (c', skip') ∧ l' = pre' ++ c' :: post' ∧ skip' < g.clusterSize ∧
          pre'.length * g.clusterSize + skip' = pre.length * g.clusterSize + skip) := by
  induction k generalizing m c skip pre post with
  | zero => omega
  | succ k ih =>
    have hpos := g.clusterSize_pos
    rw [writeSkip]
    by_cases hin : g.clusterSize ≤ skip
    · rw [if_pos hin]
      have hlen : (pre ++ [c]).length * g.clusterSize = pre.length * g.clusterSize + g.clusterSize := by
        rw [length_append, length_singleton, add_mul, one_mul]
      rcases advance_spec hg ht hl with ⟨rfl, hfull, hrun⟩ | ⟨c', m', post', hrun, hgrow, hdata, hpost⟩
      · rw [run_bind_of hrun]
        refine ⟨none, m, _, rfl, Grows.refl ht hl, fun _ _ => rfl, .inl rfl, .inl ⟨rfl, hfull, ?_⟩⟩
        omega
      · rw [run_bind_of hrun]
        obtain ⟨r, m'', l'', hrun', hgrow', hdata', hmin, hr⟩ :=
          @ih m' c' (pre ++ [c]) post' (skip - g.clusterSize) (by omega) hgrow.sound hgrow.chain
        refine ⟨r, m'', l'', hrun', hgrow.trans hgrow',
          fun a ha => (hdata' a ha).trans (hdata a ha), ?_, ?_⟩
        · rcases hmin with rfl | hmin
          · rcases hpost with rfl | ⟨rfl, rfl⟩
            · exact .inl (by simp)
            · right
              rw [length_append, length_singleton, Nat.add_sub_cancel]
              omega
          · exact .inr (by omega)
        · rcases hr with ⟨hr, hfull, hle⟩ | ⟨pre'', c'', post'', skip'', hr, hl'', hskip, hsum⟩
          · exact .inl ⟨hr, hfull, by omega⟩
          · exact .inr ⟨pre'', c'', post'', skip'', hr, hl'', hskip, by omega⟩
    · rw [if_neg hin]
      exact ⟨_, m, _, rfl, Grows.refl ht hl, fun _ _ => rfl, .inl rfl,
        .inr ⟨pre, c, post, skip, rfl, rfl, by omega, rfl⟩⟩

/-! ### The data -/

/-- Data outside the table does not depend on it. -/
theorem chainData_congr (h : ∀ x ∈ l, ∀ a, g.InCluster x a → m' a = m a) :
    g.chainData m' l = g.chainData m l := by
  induction l with
  | nil => rfl
  | cons x l ih =>
    rw [chainData_cons, chainData_cons, ih fun y hy => h y (mem_cons_of_mem x hy)]
    congr 1
    exact bytes_congr fun a h1 h2 => h x mem_cons_self a ⟨h1, h2⟩

theorem chainData_append (l l' : List ℕ) :
    g.chainData m (l ++ l') = g.chainData m l ++ g.chainData m l' := flatMap_append

/-- Bytes written into one of the clusters patch the data of all. -/
theorem chainData_blit (hg : g.Regular) (hrange : ∀ x ∈ pre ++ c :: post, g.InRange x)
    (hnodup : (pre ++ c :: post).Nodup) {off : ℕ} {bytes : List UInt8}
    (hfit : off + bytes.length ≤ g.clusterSize) :
    g.chainData (m.blit (g.clusterAddr c + off) bytes) (pre ++ c :: post) =
      patch (g.chainData m (pre ++ c :: post)) (pre.length * g.clusterSize + off) bytes := by
  have hc := hrange c (by simp)
  have hother : ∀ l : List ℕ, (∀ x ∈ l, x ≠ c ∧ g.InRange x) →
      g.chainData (m.blit (g.clusterAddr c + off) bytes) l = g.chainData m l := by
    intro l hl
    refine chainData_congr fun x hx a ha => m.blit_apply_of_not_mem fun hin => ?_
    refine (hl x hx).1 (hg.eq_of_inCluster (hl x hx).2 hc ha ?_)
    rw [InCluster]
    omega
  have hpre : ∀ x ∈ pre, x ≠ c ∧ g.InRange x := by
    intro x hx
    refine ⟨?_, hrange x (mem_append_left _ hx)⟩
    rintro rfl
    exact (nodup_append.mp hnodup).2.2 x hx x mem_cons_self rfl
  have hpost : ∀ x ∈ post, x ≠ c ∧ g.InRange x := by
    intro x hx
    refine ⟨?_, hrange x (by simp [hx])⟩
    rintro rfl
    exact (nodup_cons.mp (nodup_append.mp hnodup).2.1).1 hx
  have hdata : g.clusterData (m.blit (g.clusterAddr c + off) bytes) c =
      patch (g.clusterData m c) off bytes := bytes_blit_inside m _ hfit
  rw [chainData_append, chainData_cons, hother pre hpre, hother post hpost, hdata, chainData_append,
    chainData_cons, ← length_chainData (m := m) pre, patch_append_right,
    patch_append_left (by simpa using hfit)]

/-- The loop over the sectors writes up to the end of the cluster, if nothing fails. -/
theorem succeeds_writeSectors {base k clusterOff : ℕ} {rest : List UInt8} (hk : rest.length < k)
    (hbase : base + g.sectorsPerCluster < 2 ^ 32) :
    ∃ ops, (g.writeSectors base k clusterOff rest).Succeeds m
      (some (rest.drop (g.clusterSize - clusterOff)))
      (m.blit (base * 512 + clusterOff) (rest.take (g.clusterSize - clusterOff))) ops := by
  induction k generalizing m clusterOff rest with
  | zero => omega
  | succ k ih =>
    rw [writeSectors]
    split
    · next hin =>
      obtain ⟨hoff, hne⟩ := hin
      have hpos := length_pos_iff.mpr hne
      rw [clusterSize] at hoff
      have hsector : (base + clusterOff / 512) % 2 ^ 32 = base + clusterOff / 512 :=
        mod_eq_of_lt (by omega)
      have haddr : (base + clusterOff / 512) * 512 + clusterOff % 512 = base * 512 + clusterOff := by
        omega
      have hroom : g.clusterSize - clusterOff = (512 - clusterOff % 512) +
          (g.clusterSize - (clusterOff + (512 - clusterOff % 512))) := by
        rw [clusterSize]
        omega
      rw [hsector]
      obtain ⟨ops, hrest⟩ := @ih (m.blit (base * 512 + clusterOff)
          (rest.take (min (512 - clusterOff % 512) rest.length)))
        (clusterOff + min (512 - clusterOff % 512) rest.length)
        (rest.drop (min (512 - clusterOff % 512) rest.length)) (by rw [length_drop]; omega)
      refine ⟨1 + (1 + ops), succeeds_readSector.bind ?_⟩
      dsimp only
      refine succeeds_writeSector.bind ?_
      rw [if_pos rfl, blit_patch _ _ (by rw [length_take]; omega), haddr]
      by_cases hshort : rest.length ≤ 512 - clusterOff % 512
      · -- the rest fits into this sector
        rw [min_eq_right hshort, take_length, drop_length, drop_nil, take_nil, blit_nil] at hrest
        rwa [min_eq_right hshort, take_length, drop_length,
          drop_of_length_le (by omega), take_of_length_le (by omega)]
      · rw [min_eq_left (by omega), drop_drop, ← hroom] at hrest
        rw [min_eq_left (by omega)]
        have htake : rest.take (g.clusterSize - clusterOff) = rest.take (512 - clusterOff % 512) ++
            (rest.drop (512 - clusterOff % 512)).take
              (g.clusterSize - (clusterOff + (512 - clusterOff % 512))) := by
          rw [← take_add, ← hroom]
        rwa [htake, blit_append, length_take_of_le (by omega), add_assoc]
    · next hout =>
      by_cases hne : rest = []
      · rw [hne, drop_nil, take_nil, blit_nil]
        exact ⟨0, succeeds_pure⟩
      · have hzero : g.clusterSize - clusterOff = 0 := by
          have : ¬clusterOff < g.clusterSize := fun h => hout ⟨h, hne⟩
          omega
        rw [hzero, drop_zero, take_zero, blit_nil]
        exact ⟨0, succeeds_pure⟩

theorem run_writeSectors {base k clusterOff : ℕ} {rest : List UInt8} (hk : rest.length < k)
    (hbase : base + g.sectorsPerCluster < 2 ^ 32) :
    (g.writeSectors base k clusterOff rest).run (.ok m) =
      some (some (rest.drop (g.clusterSize - clusterOff)),
        .ok (m.blit (base * 512 + clusterOff) (rest.take (g.clusterSize - clusterOff)))) := by
  obtain ⟨ops, h⟩ := succeeds_writeSectors hk hbase
  exact h.run_ok

/-- How the loop over the clusters ends on a disk without faults, started at the position `pos` of
the chain `l` with the bytes `rest`. -/
structure Wrote (g : Geometry) (m m' : ByteMem) (s pos : ℕ) (l l' : List ℕ) (rest : List UInt8)
    (e : WriteEnd) (written : ℕ) : Prop where
  grows : g.Grows m m' s l l'
  data : g.chainData m' l' = patch (g.chainData m l') pos (rest.take written)
  fits : pos + written ≤ l'.length * g.clusterSize
  tight : l' = l ∨ (l'.length - 1) * g.clusterSize < pos + written
  ending : e = .done ∧ written = rest.length ∨
    e = .short (rest.length - written) ∧ written < rest.length ∧ g.firstFree m' = none ∧
      pos + written = l'.length * g.clusterSize

theorem writeClusters_spec (hg : g.Regular) {k skip : ℕ} {rest : List UInt8} (hk : rest.length < k)
    (ht : SoundTable (g.link m)) (hl : Chain (g.link m) s (pre ++ c :: post))
    (hskip : skip < g.clusterSize) :
    ∃ e m' l' written, (g.writeClusters k c skip rest).run (.ok m) = some (e, .ok m') ∧
      g.Wrote m m' s (pre.length * g.clusterSize + skip) (pre ++ c :: post) l' rest e written := by
  induction k generalizing m c skip pre post rest with
  | zero => omega
  | succ k ih =>
    have hrange := inRange_of_chain hl
    have hc := hrange c (by simp)
    have hlt := hg.lt hc
    have hlen : (pre ++ c :: post).length = pre.length + 1 + post.length := by simp; omega
    have hroom : pre.length * g.clusterSize + g.clusterSize ≤
        (pre ++ c :: post).length * g.clusterSize := by
      rw [hlen, add_mul, add_mul, one_mul]
      omega
    rw [writeClusters]
    by_cases hne : rest = []
    · subst hne
      exact ⟨.done, m, _, 0, rfl, Grows.refl ht hl, by simp, by omega, .inl rfl, .inl ⟨rfl, rfl⟩⟩
    rw [if_pos hne, run_bind_of (run_writeSectors (lt_succ_self _)
      (g.clusterToSector_add_lt c hc.1 (by omega)))]
    dsimp only
    -- the bytes that go into this cluster
    have hfit : skip + (rest.take (g.clusterSize - skip)).length ≤ g.clusterSize := by
      rw [length_take]
      omega
    have hgrow := Grows.blit hg ht hl (show c ∈ pre ++ c :: post by simp) hfit
    have haddr : g.clusterToSector c * 512 + skip = g.clusterAddr c + skip := rfl
    rw [haddr]
    by_cases hdone : rest.length ≤ g.clusterSize - skip
    · rw [if_pos (drop_of_length_le hdone)]
      refine ⟨.done, _, _, rest.length, rfl, hgrow, ?_, by omega, .inl rfl, .inl ⟨rfl, rfl⟩⟩
      rw [take_length, take_of_length_le hdone] at *
      exact chainData_blit hg hrange hl.nodup (by omega)
    · have hmore : rest.drop (g.clusterSize - skip) ≠ [] := by
        rw [ne_eq, drop_eq_nil_iff]
        omega
      rw [if_neg hmore]
      generalize hm1 : m.blit (g.clusterAddr c + skip) (rest.take (g.clusterSize - skip)) = m1 at *
      rcases advance_spec hg hgrow.sound hgrow.chain with
        ⟨rfl, hfull, hrun⟩ | ⟨c', m', post', hrun, hgrow', hdata, hpost⟩
      · -- no cluster is left
        rw [run_bind_of hrun]
        refine ⟨_, m1, _, g.clusterSize - skip, rfl, hgrow, ?_, by omega, .inl rfl,
          .inr ⟨by rw [length_drop], by omega, hfull, ?_⟩⟩
        · rw [← hm1]
          exact chainData_blit hg hrange hl.nodup hfit
        · rw [hlen, add_mul, add_mul]
          simp
          omega
      · rw [run_bind_of hrun]
        obtain ⟨e, m'', l'', written, hrun', hgrow'', hdata'', hfits, htight, hend⟩ :=
          @ih m' c' (pre ++ [c]) post' 0 (rest.drop (g.clusterSize - skip))
            (by rw [length_drop]; omega) hgrow'.sound hgrow'.chain g.clusterSize_pos
        have hpos : (pre ++ [c]).length * g.clusterSize + 0 =
            pre.length * g.clusterSize + skip + (g.clusterSize - skip) := by
          rw [length_append, length_singleton, add_mul, one_mul]
          omega
        rw [hpos] at hdata'' hfits htight hend
        have hlen' : (rest.drop (g.clusterSize - skip)).length =
          rest.length - (g.clusterSize - skip) := length_drop
        refine ⟨e, m'', l'', g.clusterSize - skip + written, hrun', (hgrow.trans hgrow').trans hgrow'',
          ?_, by omega, ?_, ?_⟩
        · obtain ⟨new, rfl⟩ := hgrow''.isPrefix
          have hrange'' := inRange_of_chain hgrow''.chain
          have hsplit : pre ++ [c] ++ c' :: post' ++ new = pre ++ c :: (c' :: post' ++ new) := by simp
          have htable : g.chainData m' (pre ++ [c] ++ c' :: post' ++ new) =
              g.chainData m1 (pre ++ [c] ++ c' :: post' ++ new) :=
            chainData_congr fun x hx a ha => hdata a (hg.not_inTable (hrange'' x hx) ha)
          have hfirst : g.chainData m1 (pre ++ [c] ++ c' :: post' ++ new) =
              patch (g.chainData m (pre ++ [c] ++ c' :: post' ++ new))
                (pre.length * g.clusterSize + skip) (rest.take (g.clusterSize - skip)) := by
            have hnodup'' := hgrow''.chain.nodup
            rw [hsplit] at hrange'' hnodup'' ⊢
            rw [← hm1]
            exact chainData_blit hg hrange'' hnodup'' hfit
          have htake : (rest.take (g.clusterSize - skip)).length = g.clusterSize - skip :=
            length_take_of_le (by omega)
          have hbound : pre.length * g.clusterSize + skip ≤
              (g.chainData m (pre ++ [c] ++ c' :: post' ++ new)).length := by
            rw [length_chainData]
            omega
          rw [hdata'', htable, hfirst, take_add, ← patch_patch hbound, htake]
        · rcases htight with htight | htight
          · rcases hpost with rfl | ⟨rfl, rfl⟩
            · exact .inl (by simpa using htight)
            · -- a cluster that is taken is written to
              right
              have hlen'' : l''.length = pre.length + 2 := by rw [htight]; simp
              have hmul : (pre.length + 2) * g.clusterSize =
                  pre.length * g.clusterSize + g.clusterSize + g.clusterSize := by ring
              have hmul' : (pre.length + 2 - 1) * g.clusterSize =
                  pre.length * g.clusterSize + g.clusterSize := by
                rw [Nat.add_sub_assoc (by omega), Nat.add_mul, Nat.one_mul]
              rw [hlen''] at hend ⊢
              rcases hend with ⟨-, hw⟩ | ⟨-, -, -, heq⟩
              · omega
              · omega
          · exact .inr (by omega)
        · rcases hend with ⟨he, hw⟩ | ⟨he, hw, hfull, heq⟩
          · exact .inl ⟨he, by omega⟩
          · exact .inr ⟨by rw [he, hlen']; congr 1; omega, by omega, hfull, by omega⟩

end Geometry

end Neptune
