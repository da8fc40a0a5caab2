import Neptune.Heap.Kalloc
import Neptune.Lib.Segment

/-!
# The large free list refines a coalescing list of extents

`RepLarge h L` says that the nodes linked from `free_large` are the extents `L`.
Under it `insert_large_node` is `Extent.insertExtent`, and it writes nothing but
headers of nodes it inserts or links.

## Main results

* `findLargeSpot_spec` — the search loop splits the list at the new address.
* `insertLargeNode_spec` — **`insert_large_node` inserts and coalesces.**
-/

namespace Neptune

open ByteMem List
open Word64 Extent

namespace Kheap

/-! ### Which bytes a header store touches -/

/-- `m'` differs from `m` at most in the 24-byte headers of the nodes `l`. -/
def OnlyHdrs (l : List ℕ) (m m' : ByteMem) : Prop :=
  ∀ x, (∀ a ∈ l, x < a ∨ a + 24 ≤ x) → m' x = m x

theorem OnlyHdrs.refl (l : List ℕ) (m : ByteMem) : OnlyHdrs l m m := fun _ _ => rfl

theorem OnlyHdrs.trans {l : List ℕ} {m m' m'' : ByteMem} (h : OnlyHdrs l m m')
    (h' : OnlyHdrs l m' m'') : OnlyHdrs l m m'' := fun x hx => (h' x hx).trans (h x hx)

theorem OnlyHdrs.mono {l l' : List ℕ} {m m' : ByteMem} (h : OnlyHdrs l m m') (hl : l ⊆ l') :
    OnlyHdrs l' m m' := fun x hx => h x fun a ha => hx a (hl ha)

theorem onlyHdrs_store {a d v : ℕ} (m : ByteMem) (hd : d + 8 ≤ 24) :
    OnlyHdrs [a] m (m.store 8 (a + d) v) := by
  intro x hx
  have := hx a mem_cons_self
  exact store_apply_of_not_mem m (by omega)

theorem onlyHdrs_setNext (h : Kheap) (a v : ℕ) : OnlyHdrs [a] h.mem (h.setNext a v).mem :=
  onlyHdrs_store (d := 0) h.mem (by omega)

theorem onlyHdrs_setSize (h : Kheap) (a v : ℕ) : OnlyHdrs [a] h.mem (h.setSize a v).mem :=
  onlyHdrs_store (d := 8) h.mem (by omega)

theorem onlyHdrs_setAlign (h : Kheap) (a v : ℕ) : OnlyHdrs [a] h.mem (h.setAlign a v).mem :=
  onlyHdrs_store (d := 16) h.mem (by omega)

theorem onlyHdrs_setHdr (h : Kheap) (a cls size align : ℕ) :
    OnlyHdrs [a] h.mem (h.setHdr a cls size align).mem :=
  (onlyHdrs_setNext h a cls).trans ((onlyHdrs_setSize _ a size).trans (onlyHdrs_setAlign _ a align))

/-- The header words of `b` are the same in both heaps. -/
structure SameHdr (h h' : Kheap) (b : ℕ) : Prop where
  next : h'.next b = h.next b
  size : h'.size b = h.size b
  align : h'.align b = h.align b

theorem sameHdr_of_bytes {h h' : Kheap} {b : ℕ}
    (hb : ∀ x, b ≤ x → x < b + 24 → h'.mem x = h.mem x) : SameHdr h h' b where
  next := load_congr fun x h1 h2 => hb x (by omega) (by omega)
  size := load_congr fun x h1 h2 => hb x (by omega) (by omega)
  align := load_congr fun x h1 h2 => hb x (by omega) (by omega)

/-- A node whose header overlaps none of the touched ones keeps its words. -/
theorem OnlyHdrs.sameHdr {l : List ℕ} {h h' : Kheap} {b : ℕ} (hl : OnlyHdrs l h.mem h'.mem)
    (hb : ∀ a ∈ l, a + 24 ≤ b ∨ b + 24 ≤ a) : SameHdr h h' b := by
  refine sameHdr_of_bytes fun x h1 h2 => hl x fun a ha => ?_
  have := hb a ha
  omega

/-! ### The words of the node itself -/

theorem load_eight_store {m : ByteMem} {a v : ℕ} (hv : v < 2 ^ 64) :
    (m.store 8 a v).load 8 a = v := by
  rw [load_store_self]
  exact Nat.mod_eq_of_lt (by norm_num; omega)

theorem next_lt (h : Kheap) (a : ℕ) : h.next a < 2 ^ 64 :=
  lt_of_lt_of_eq (h.mem.load_lt 8 a) (by norm_num)

theorem size_lt (h : Kheap) (a : ℕ) : h.size a < 2 ^ 64 :=
  lt_of_lt_of_eq (h.mem.load_lt 8 (a + 8)) (by norm_num)

theorem next_setNext {h : Kheap} {a v : ℕ} (hv : v < 2 ^ 64) : (h.setNext a v).next a = v :=
  load_eight_store hv

theorem size_setSize {h : Kheap} {a v : ℕ} (hv : v < 2 ^ 64) : (h.setSize a v).size a = v :=
  load_eight_store hv

@[simp] theorem size_setNext (h : Kheap) (a v : ℕ) : (h.setNext a v).size a = h.size a :=
  load_store_of_disjoint _ (by omega)

@[simp] theorem size_setAlign (h : Kheap) (a v : ℕ) : (h.setAlign a v).size a = h.size a :=
  load_store_of_disjoint _ (by omega)

@[simp] theorem next_setSize (h : Kheap) (a v : ℕ) : (h.setSize a v).next a = h.next a :=
  load_store_of_disjoint _ (by omega)

@[simp] theorem next_setAlign (h : Kheap) (a v : ℕ) : (h.setAlign a v).next a = h.next a :=
  load_store_of_disjoint _ (by omega)

theorem classIdx_setHdr {h : Kheap} {a cls size align : ℕ} (hc : cls < 2 ^ 64) :
    (h.setHdr a cls size align).classIdx a = cls := by
  show (((h.setNext a cls).setSize a size).setAlign a align).next a = cls
  rw [next_setAlign, next_setSize, next_setNext hc]

theorem size_setHdr {h : Kheap} {a cls size align : ℕ} (hs : size < 2 ^ 64) :
    (h.setHdr a cls size align).size a = size := by
  show (((h.setNext a cls).setSize a size).setAlign a align).size a = size
  rw [size_setAlign, size_setSize hs]

/-! ### Representation -/

/-- The nodes linked from `free_large` are the extents `L`, in order. -/
structure RepLarge (h : Kheap) (L : List Extent) : Prop where
  seg : Seg h.next h.freeLarge (L.map Extent.base) 0
  size : ∀ e ∈ L, h.size e.base = e.size

/-- Extents in order that can hold a node each and end below `2 ^ 64`. -/
structure NodesOk (L : List Extent) : Prop where
  ordered : L.Pairwise fun e f => e.limit ≤ f.base
  size_le : ∀ e ∈ L, 24 ≤ e.size
  limit_le : ∀ e ∈ L, e.limit ≤ 2 ^ 64

theorem NodesOk.sublist {L L' : List Extent} (h : NodesOk L) (hs : L'.Sublist L) : NodesOk L' :=
  ⟨h.ordered.sublist hs, fun e he => h.size_le e (hs.subset he),
    fun e he => h.limit_le e (hs.subset he)⟩

/-- Distinct nodes of an ordered list have disjoint headers. -/
theorem NodesOk.hdr_apart {A B : List Extent} {x c : Extent} (h : NodesOk (A ++ x :: B))
    (hc : c ∈ A ∨ c ∈ B) : x.base + 24 ≤ c.base ∨ c.base + 24 ≤ x.base := by
  obtain ⟨-, hB, hA⟩ := pairwise_append.mp h.ordered
  have hx := h.size_le x (by simp)
  rcases hc with hc | hc
  · have h1 := hA c hc x mem_cons_self
    have h2 := h.size_le c (by simp [hc])
    unfold limit at h1
    omega
  · have h1 := (pairwise_cons.mp hB).1 c hc
    unfold limit at h1
    omega

/-- Joining keeps a list of nodes in order. -/
theorem NodesOk.joinHead {A M : List Extent} {x : Extent} (h : NodesOk (A ++ x :: M)) :
    NodesOk (A ++ joinHead x M) := by
  cases M with
  | nil => exact h
  | cons c T =>
    simp only [Extent.joinHead]
    split
    · next htouch =>
      obtain ⟨hA, hxM, hcross⟩ := pairwise_append.mp h.ordered
      obtain ⟨hx, hcT⟩ := pairwise_cons.mp hxM
      obtain ⟨hc, hT⟩ := pairwise_cons.mp hcT
      have hlimit : (⟨x.base, x.size + c.size⟩ : Extent).limit = c.limit := by
        unfold limit at *; dsimp only; omega
      refine ⟨pairwise_append.mpr ⟨hA, pairwise_cons.mpr ⟨?_, hT⟩, ?_⟩, ?_, ?_⟩
      · intro d hd; rw [hlimit]; exact hc d hd
      · intro d hd f hf
        rcases mem_cons.mp hf with rfl | hf
        · exact hcross d hd x (by simp)
        · exact hcross d hd f (by simp [hf])
      · intro d hd
        rcases mem_append.mp hd with hd | hd
        · exact h.size_le d (by simp [hd])
        rcases mem_cons.mp hd with rfl | hd
        · exact le_trans (h.size_le x (by simp)) (Nat.le_add_right _ _)
        · exact h.size_le d (by simp [hd])
      · intro d hd
        rcases mem_append.mp hd with hd | hd
        · exact h.limit_le d (by simp [hd])
        rcases mem_cons.mp hd with rfl | hd
        · rw [hlimit]; exact h.limit_le c (by simp)
        · exact h.limit_le d (by simp [hd])
    · exact h

/-- The list is represented in any heap that agrees on the nodes' words. -/
theorem RepLarge.congr {h h' : Kheap} {L : List Extent} (hr : RepLarge h L)
    (hf : h'.freeLarge = h.freeLarge) (hs : ∀ e ∈ L, SameHdr h h' e.base) : RepLarge h' L where
  seg := by
    rw [hf]
    refine hr.seg.congr fun a ha => ?_
    obtain ⟨e, he, rfl⟩ := mem_map.mp ha
    exact (hs e he).next
  size := fun e he => ((hs e he).size).trans (hr.size e he)

theorem RepLarge.base_ne_zero {h : Kheap} {L : List Extent} (hr : RepLarge h L) {e : Extent}
    (he : e ∈ L) : e.base ≠ 0 := hr.seg.ne_zero _ (mem_map_of_mem he)

/-! ### The search loop -/

/-- The base of the last extent of a list, or `d`. -/
def lastBase (d : ℕ) (L : List Extent) : ℕ := L.getLast?.elim d Extent.base

/-- The base of the first extent of a list, or null. -/
def headBase (L : List Extent) : ℕ := L.head?.elim 0 Extent.base

@[simp] theorem headBase_nil : headBase [] = 0 := rfl

@[simp] theorem headBase_cons (c : Extent) (L : List Extent) : headBase (c :: L) = c.base := rfl

@[simp] theorem lastBase_nil (d : ℕ) : lastBase d [] = d := rfl

@[simp] theorem lastBase_concat (d : ℕ) (L : List Extent) (p : Extent) :
    lastBase d (L ++ [p]) = p.base := by
  simp [lastBase]

theorem lastBase_cons (d : ℕ) (c : Extent) (L : List Extent) :
    lastBase d (c :: L) = lastBase c.base L := by
  rcases eq_nil_or_concat L with rfl | ⟨L', p, rfl⟩
  · rfl
  · rw [concat_eq_append, ← cons_append, lastBase_concat, lastBase_concat]

theorem headBase_of_seg {next : ℕ → ℕ} {p : ℕ} {L : List Extent}
    (h : Seg next p (L.map Extent.base) 0) : p = headBase L := by
  cases L with
  | nil => exact h
  | cons c L => exact h.1

/-- **The search loop splits the list at the new address.** -/
theorem findLargeSpot_spec {m : ByteMem} {addr : ℕ} : ∀ {L : List Extent} {fuel prev cur : ℕ},
    Seg (fun a => m.load 8 a) cur (L.map Extent.base) 0 → L.length < fuel →
      findLargeSpot m addr fuel prev cur = some (lastBase prev (L.takeWhile fun c => c.base < addr),
          headBase (L.dropWhile fun c => c.base < addr)) := by
  intro L
  induction L with
  | nil =>
    intro fuel prev cur hseg hlt
    obtain ⟨fuel, rfl⟩ : ∃ f, fuel = f + 1 := ⟨fuel - 1, by omega⟩
    have hcur : cur = 0 := hseg
    simp [findLargeSpot, hcur]
  | cons c L ih =>
    intro fuel prev cur hseg hlt
    obtain ⟨fuel, rfl⟩ : ∃ f, fuel = f + 1 := ⟨fuel - 1, by simp at hlt; omega⟩
    obtain ⟨rfl, hne, hseg⟩ := hseg
    rw [findLargeSpot]
    by_cases hb : c.base < addr
    · rw [if_pos ⟨hne, hb⟩, ih hseg (by simpa using hlt)]
      simp [hb, lastBase_cons]
    · rw [if_neg (by simp [hb])]
      simp [hb]

/-! ### Linking and coalescing -/

/-- Absorbing the next node joins the two extents. -/
theorem RepLarge.absorb {h : Kheap} {A T : List Extent} {x y : Extent}
    (hr : RepLarge h (A ++ x :: y :: T)) (hok : NodesOk (A ++ x :: y :: T))
    (htouch : x.limit = y.base) :
    RepLarge (h.absorb x.base y.base) (A ++ ⟨x.base, x.size + y.size⟩ :: T) := by
  have hxs : h.size x.base = x.size := hr.size x (by simp)
  have hys : h.size y.base = y.size := hr.size y (by simp)
  have hylim : y.limit ≤ 2 ^ 64 := hok.limit_le y (by simp)
  have hsum : x.size + y.size < 2 ^ 64 := by
    have := hr.base_ne_zero (e := x) (by simp)
    unfold limit at *
    omega
  -- only the header of `x` changes
  have hother : ∀ c, c ∈ A ∨ c ∈ y :: T → SameHdr h (h.absorb x.base y.base) c.base := by
    intro c hc
    refine OnlyHdrs.sameHdr (l := [x.base]) ?_ ?_
    · exact (onlyHdrs_setSize h _ _).trans (onlyHdrs_setNext _ _ _)
    · intro a ha
      obtain rfl := mem_singleton.mp ha
      exact hok.hdr_apart hc
  have hseg := hr.seg
  simp only [map_append, map_cons, Seg.append_iff, Seg.cons_iff] at hseg
  obtain ⟨r, hA, hx, hx0, -, -, hT⟩ := hseg
  have hynext : (h.setSize x.base (h.size x.base + h.size y.base)).next y.base = h.next y.base := by
    refine (OnlyHdrs.sameHdr (onlyHdrs_setSize h x.base _) fun a ha => ?_).next
    obtain rfl := mem_singleton.mp ha
    exact hok.hdr_apart (.inr mem_cons_self)
  have hxnext : (h.absorb x.base y.base).next x.base = h.next y.base := by
    show ((h.setSize x.base _).setNext x.base _).next x.base = _
    rw [hynext, next_setNext (h.next_lt y.base)]
  refine ⟨?_, ?_⟩
  · show Seg _ h.freeLarge _ _
    simp only [map_append, map_cons, Seg.append_iff, Seg.cons_iff]
    refine ⟨r, hA.congr ?_, hx, hx0, ?_⟩
    · intro a ha
      obtain ⟨c, hc, rfl⟩ := mem_map.mp ha
      exact (hother c (.inl hc)).next
    · rw [hxnext]
      refine hT.congr ?_
      intro a ha
      obtain ⟨c, hc, rfl⟩ := mem_map.mp ha
      exact (hother c (.inr (by simp [hc]))).next
  · intro e he
    rcases mem_append.mp he with he | he
    · exact (hother e (.inl he)).size.trans (hr.size e (by simp [he]))
    rcases mem_cons.mp he with rfl | he
    · show ((h.setSize x.base _).setNext x.base _).size x.base = _
      rw [size_setNext, hxs, hys, size_setSize hsum]
    · exact (hother e (.inr (by simp [he]))).size.trans (hr.size e (by simp [he]))

/-- Coalescing a node with the one after it is `joinHead`. -/
theorem RepLarge.coalesce {h : Kheap} {A M : List Extent} {x : Extent}
    (hr : RepLarge h (A ++ x :: M)) (hok : NodesOk (A ++ x :: M)) :
    RepLarge (h.coalesce x.base (headBase M)) (A ++ Extent.joinHead x M) := by
  cases M with
  | nil => simpa [Kheap.coalesce, Extent.joinHead] using hr
  | cons c T =>
    have hxs : h.size x.base = x.size := hr.size x (by simp)
    have hc0 : c.base ≠ 0 := hr.base_ne_zero (by simp)
    have hlim : x.limit < 2 ^ 64 := by
      have h1 := (pairwise_cons.mp (pairwise_append.mp hok.ordered).2.1).1 c (by simp)
      have h2 := hok.limit_le c (by simp)
      have h3 := hok.size_le c (by simp)
      unfold limit at *
      omega
    have hcond : (headBase (c :: T) ≠ 0 ∧ u64 (x.base + h.size x.base) = headBase (c :: T)) ↔
        x.limit = c.base := by
      rw [headBase_cons, hxs]
      show _ ∧ u64 x.limit = _ ↔ _
      rw [u64_of_lt hlim]
      exact ⟨And.right, fun htouch => ⟨hc0, htouch⟩⟩
    simp only [Kheap.coalesce, Extent.joinHead]
    by_cases htouch : x.limit = c.base
    · rw [if_pos (hcond.mpr htouch), if_pos htouch, headBase_cons]
      exact hr.absorb hok htouch
    · rw [if_neg (fun hh => htouch (hcond.mp hh)), if_neg htouch]
      exact hr

/-- Linking a node in between two parts of the list. -/
theorem RepLarge.link {h : Kheap} {A B : List Extent} {e : Extent} (hr : RepLarge h (A ++ B))
    (hok : NodesOk (A ++ e :: B)) (he0 : e.base ≠ 0) (hes : h.size e.base = e.size) :
    RepLarge ((h.setNext e.base (headBase B)).setLink (lastBase 0 A) e.base) (A ++ e :: B) := by
  have hbase : ∀ c ∈ A ++ e :: B, c.base < 2 ^ 64 := by
    intro c hc
    have h1 := hok.limit_le c hc
    have h2 := hok.size_le c hc
    unfold limit at h1
    omega
  have hhead : headBase B < 2 ^ 64 := by
    cases B with
    | nil => simp
    | cons c B => exact hbase c (by simp)
  set h₁ := h.setNext e.base (headBase B) with hh₁
  -- the nodes of the list keep their words when `e` is written
  have hsame : ∀ c ∈ A ++ B, SameHdr h h₁ c.base := by
    intro c hc
    refine OnlyHdrs.sameHdr (onlyHdrs_setNext h _ _) fun a ha => ?_
    obtain rfl := mem_singleton.mp ha
    exact hok.hdr_apart (mem_append.mp hc)
  have hr₁ : RepLarge h₁ (A ++ B) := hr.congr rfl hsame
  have hnext : h₁.next e.base = headBase B := next_setNext hhead
  have hsize : h₁.size e.base = e.size := (size_setNext h _ _).trans hes
  obtain ⟨r, hA, hB⟩ := Seg.append_iff.mp (map_append ▸ hr₁.seg)
  obtain rfl := headBase_of_seg hB
  rcases eq_nil_or_concat A with rfl | ⟨A', p, rfl⟩
  · -- `e` becomes the head of the list
    refine ⟨⟨rfl, he0, ?_⟩, ?_⟩
    · show Seg h₁.next (h₁.next e.base) _ 0
      rw [hnext]
      exact hB
    · intro c hc
      rcases mem_cons.mp hc with rfl | hc
      · exact hsize
      · exact hr₁.size c (by simpa using hc)
  · -- the predecessor `p` is redirected to `e`
    rw [concat_eq_append] at *
    have hp0 : p.base ≠ 0 := hr₁.base_ne_zero (e := p) (by simp)
    have happ : ∀ c, c ∈ A' ∨ c ∈ e :: B → SameHdr h₁ (h₁.setNext p.base e.base) c.base := by
      intro c hc
      refine OnlyHdrs.sameHdr (onlyHdrs_setNext h₁ _ _) fun a ha => ?_
      obtain rfl := mem_singleton.mp ha
      exact NodesOk.hdr_apart (A := A') (B := e :: B) (by simpa using hok) hc
    have hpn : (h₁.setNext p.base e.base).next p.base = e.base :=
      next_setNext (hbase e (by simp))
    rw [lastBase_concat, setLink, if_neg hp0]
    refine ⟨?_, ?_⟩
    · rw [map_append, Seg.append_iff]
      refine ⟨e.base, ?_, rfl, he0, ?_⟩
      · rw [map_append, map_singleton] at hA ⊢
        refine hA.relink (fun a ha => ?_) hpn
        obtain ⟨c, hc, rfl⟩ := mem_map.mp ha
        exact (happ c (.inl hc)).next
      · rw [(happ e (.inr (by simp))).next, hnext]
        refine hB.congr fun a ha => ?_
        obtain ⟨c, hc, rfl⟩ := mem_map.mp ha
        exact (happ c (.inr (by simp [hc]))).next
    · intro c hc
      rw [append_assoc, mem_append] at hc
      rcases hc with hc | hc
      · exact (happ c (.inl hc)).size.trans (hr₁.size c (by simp [hc]))
      rcases mem_cons.mp hc with rfl | hc
      · exact (size_setNext h₁ _ _).trans (hr₁.size c (by simp))
      rcases mem_cons.mp hc with rfl | hc
      · exact (happ c (.inr (by simp))).size.trans hsize
      · exact (happ c (.inr (by simp [hc]))).size.trans (hr₁.size c (by simp [hc]))

/-- Coalescing with the predecessor, when the list comes out gapped: the second
forward merge finds nothing to join. -/
theorem RepLarge.coalescePrev {h : Kheap} {A M : List Extent} {p : Extent}
    (hr : RepLarge h (A ++ p :: M)) (hok : NodesOk (A ++ p :: M)) (hM : M ≠ [])
    (hg : Gapped (Extent.joinHead p M)) :
    RepLarge (h.coalescePrev p.base (headBase M)) (A ++ Extent.joinHead p M) := by
  have hp0 : p.base ≠ 0 := hr.base_ne_zero (by simp)
  have hm0 : headBase M ≠ 0 := by
    cases M with
    | nil => exact absurd rfl hM
    | cons c T => exact hr.base_ne_zero (by simp)
  have hco := hr.coalesce hok
  unfold Kheap.coalesce at hco
  unfold Kheap.coalescePrev
  by_cases htouch : u64 (p.base + h.size p.base) = headBase M
  · rw [if_pos ⟨hm0, htouch⟩] at hco
    rw [if_pos ⟨hp0, htouch⟩]
    -- the joined list starts with an extent at `p.base` that touches nothing
    obtain ⟨q, T, hq, hqb⟩ : ∃ q T, Extent.joinHead p M = q :: T ∧ q.base = p.base := by
      cases M with
      | nil => exact ⟨p, [], rfl, rfl⟩
      | cons c T =>
        simp only [Extent.joinHead]
        split
        · exact ⟨_, _, rfl, rfl⟩
        · exact ⟨_, _, rfl, rfl⟩
    have hok' := hok.joinHead
    rw [hq] at hco hok' hg ⊢
    have hnext : (h.absorb p.base (headBase M)).next p.base = headBase T := by
      have hseg := hco.seg
      simp only [map_append, map_cons, Seg.append_iff, Seg.cons_iff, hqb] at hseg
      obtain ⟨r, -, -, -, hT⟩ := hseg
      exact headBase_of_seg hT
    have hjoin : Extent.joinHead q T = q :: T := by
      cases T with
      | nil => rfl
      | cons c T =>
        have := (pairwise_cons.mp hg).1 c (by simp)
        simp [Extent.joinHead, this.ne]
    have := hco.coalesce hok'
    rw [hjoin, hqb, ← hnext] at this
    exact this
  · rw [if_neg (fun hh => htouch hh.2)] at hco ⊢
    exact hco

theorem onlyHdrs_absorb (h : Kheap) (x y : ℕ) : OnlyHdrs [x] h.mem (h.absorb x y).mem :=
  (onlyHdrs_setSize h _ _).trans (onlyHdrs_setNext _ _ _)

theorem onlyHdrs_coalesce (h : Kheap) (x y : ℕ) : OnlyHdrs [x] h.mem (h.coalesce x y).mem := by
  unfold Kheap.coalesce
  split
  · exact onlyHdrs_absorb h x y
  · exact OnlyHdrs.refl _ _

theorem onlyHdrs_coalescePrev {h : Kheap} {x y : ℕ} {l : List ℕ} (hx : x ≠ 0 → x ∈ l) :
    OnlyHdrs l h.mem (h.coalescePrev x y).mem := by
  unfold Kheap.coalescePrev
  split
  · next hc =>
    exact ((onlyHdrs_absorb h x y).trans (onlyHdrs_coalesce _ _ _)).mono (by simpa using hx hc.1)
  · exact OnlyHdrs.refl _ _

theorem onlyHdrs_setLink {h : Kheap} {prev v : ℕ} {l : List ℕ} (hp : prev ≠ 0 → prev ∈ l) :
    OnlyHdrs l h.mem (h.setLink prev v).mem := by
  unfold setLink
  split
  · exact OnlyHdrs.refl _ _
  · next hne => exact (onlyHdrs_setNext h prev v).mono (by simpa using hp hne)

/-! ### Insertion -/

/-- The variables that the large list does not use are the same. -/
structure SameVars (h h' : Kheap) : Prop where
  heapCur : h'.heapCur = h.heapCur
  heapEnd : h'.heapEnd = h.heapEnd
  freesEnabled : h'.freesEnabled = h.freesEnabled
  freeLists : h'.freeLists = h.freeLists

theorem SameVars.refl (h : Kheap) : SameVars h h := ⟨rfl, rfl, rfl, rfl⟩

theorem SameVars.trans {h h' h'' : Kheap} (h₁ : SameVars h h') (h₂ : SameVars h' h'') :
    SameVars h h'' :=
  ⟨h₂.heapCur.trans h₁.heapCur, h₂.heapEnd.trans h₁.heapEnd,
    h₂.freesEnabled.trans h₁.freesEnabled, h₂.freeLists.trans h₁.freeLists⟩

theorem sameVars_setLink (h : Kheap) (prev v : ℕ) : SameVars h (h.setLink prev v) := by
  unfold setLink
  split <;> exact ⟨rfl, rfl, rfl, rfl⟩

theorem sameVars_coalesce (h : Kheap) (x y : ℕ) : SameVars h (h.coalesce x y) := by
  unfold Kheap.coalesce
  split <;> exact ⟨rfl, rfl, rfl, rfl⟩

theorem sameVars_coalescePrev (h : Kheap) (x y : ℕ) : SameVars h (h.coalescePrev x y) := by
  unfold Kheap.coalescePrev
  split
  · have habsorb : SameVars h (h.absorb x y) := ⟨rfl, rfl, rfl, rfl⟩
    exact habsorb.trans (sameVars_coalesce _ _ _)
  · exact SameVars.refl h

/-- What an insertion at `e` into the list `L` may change. -/
structure InsertedLarge (h h' : Kheap) (e : Extent) (L : List Extent) : Prop where
  rep : RepLarge h' (insertExtent e L)
  hdrs : OnlyHdrs (e.base :: L.map Extent.base) h.mem h'.mem
  vars : SameVars h h'

/-- An address of the heap is canonical. -/
theorem isCanonical_of_le {a : ℕ} (h : heapBase ≤ a) (h' : a < 2 ^ 64) : isCanonical a = true := by
  have : a >>> 47 = 0x1FFFF := by
    rw [Nat.shiftRight_eq_div_pow]
    unfold heapBase at h
    omega
  simp [isCanonical, this]

/-- A list of nodes is shorter than the walks' fuel. -/
theorem NodesOk.length_lt {L : List Extent} (h : NodesOk L) : L.length < walkFuel := by
  have key : ∀ (L : List Extent) (b : ℕ), NodesOk L → b ≤ 2 ^ 64 → (∀ c ∈ L, b ≤ c.base) →
      b + 24 * L.length ≤ 2 ^ 64 := by
    intro L
    induction L with
    | nil => intro b _ hb _; simpa using hb
    | cons c L ih =>
      intro b hok hb hL
      have hle := ih c.limit (hok.sublist (sublist_cons_self c L)) (hok.limit_le c (by simp))
        (pairwise_cons.mp hok.ordered).1
      have hbc := hL c (by simp)
      have hsz := hok.size_le c (by simp)
      unfold limit at hle
      simp only [length_cons]
      omega
  have := key L 0 h (by omega) (fun _ _ => Nat.zero_le _)
  unfold walkFuel
  omega

/-- A gapped list with a new extent put where the search stops. -/
theorem nodesOk_split {e : Extent} {L : List Extent} (hg : Gapped L) (hL : NodesOk L)
    (he : 24 ≤ e.size) (helim : e.limit ≤ 2 ^ 64) (ha : ∀ c ∈ L, Apart e c) :
    NodesOk (L.takeWhile (fun c => c.base < e.base) ++
      e :: L.dropWhile (fun c => c.base < e.base)) := by
  have hpos : ∀ c ∈ L, 0 < c.size := fun c hc => by have := hL.size_le c hc; omega
  have hlow := takeWhile_limit_le (by omega) ha
  have hhigh := le_dropWhile_base hg hpos ha
  have hsplit := takeWhile_append_dropWhile (p := fun c : Extent => decide (c.base < e.base)) (l := L)
  set A := L.takeWhile fun c => c.base < e.base
  set B := L.dropWhile fun c => c.base < e.base
  rw [← hsplit] at hL
  obtain ⟨hA, hB, hAB⟩ := pairwise_append.mp hL.ordered
  refine ⟨pairwise_append.mpr ⟨hA, pairwise_cons.mpr ⟨hhigh, hB⟩, ?_⟩, ?_, ?_⟩
  · intro c hc f hf
    rcases mem_cons.mp hf with rfl | hf
    · exact hlow c hc
    · exact hAB c hc f hf
  · intro c hc
    rcases mem_append.mp hc with hc | hc
    · exact hL.size_le c (by simp [hc])
    rcases mem_cons.mp hc with rfl | hc
    · exact he
    · exact hL.size_le c (by simp [hc])
  · intro c hc
    rcases mem_append.mp hc with hc | hc
    · exact hL.limit_le c (by simp [hc])
    rcases mem_cons.mp hc with rfl | hc
    · exact helim
    · exact hL.limit_le c (by simp [hc])

/-- Linking and the two merges put `e` between `A` and `B` with `joinAt`. -/
theorem RepLarge.insertBetween {h : Kheap} {A B : List Extent} {e : Extent}
    (hr : RepLarge h (A ++ B)) (hok : NodesOk (A ++ e :: B)) (hg : Gapped (A ++ B))
    (he0 : e.base ≠ 0) (hes : h.size e.base = e.size) :
    RepLarge ((((h.setNext e.base (headBase B)).setLink (lastBase 0 A) e.base).coalesce
      e.base (headBase B)).coalescePrev (lastBase 0 A) e.base) (joinAt A e B) := by
  have hlink := (hr.link hok he0 hes).coalesce hok
  have hok' := hok.joinHead
  have hpos : ∀ c ∈ A ++ e :: B, 0 < c.size := fun c hc => by have := hok.size_le c hc; omega
  rcases eq_nil_or_concat A with rfl | ⟨A', p, rfl⟩
  · rw [joinAt_nil, lastBase_nil]
    rw [Kheap.coalescePrev, if_neg (by simp)]
    exact hlink
  · rw [concat_eq_append] at *
    obtain ⟨-, heB, hcross⟩ := pairwise_append.mp hok.ordered
    have hsub : (A' ++ [p] ++ B).Sublist (A' ++ [p] ++ e :: B) :=
      (sublist_cons_self e B).append_left _
    have hgap : Gapped (joinAt (A' ++ [p]) e B) :=
      gapped_joinAt hg (fun c hc => hpos c (hsub.subset hc)) (hpos e (by simp))
        (fun c hc => hcross c hc e (by simp)) (pairwise_cons.mp heB).1
    have hhead : e.base = headBase (Extent.joinHead e B) := by
      cases B with
      | nil => rfl
      | cons c T => simp only [Extent.joinHead]; split <;> rfl
    have hne : Extent.joinHead e B ≠ [] := by
      cases B with
      | nil => simp [Extent.joinHead]
      | cons c T => simp only [Extent.joinHead]; split <;> simp
    rw [joinAt_concat] at hgap ⊢
    rw [lastBase_concat] at hlink ⊢
    rw [append_assoc, singleton_append] at hlink hok'
    have := hlink.coalescePrev hok' hne (pairwise_append.mp hgap).2.1
    rwa [← hhead] at this

/-- **`insert_large_node` inserts and coalesces.** -/
theorem insertLargeNode_spec {h : Kheap} {L : List Extent} {e : Extent} (hr : RepLarge h L)
    (hg : Gapped L) (hL : NodesOk L) (he : 24 ≤ e.size) (he0 : e.base ≠ 0)
    (hcan : isCanonical e.base = true) (helim : e.limit ≤ 2 ^ 64) (hes : h.size e.base = e.size)
    (ha : ∀ c ∈ L, Apart e c) :
    ∃ h', h.insertLargeNode e.base = some h' ∧ InsertedLarge h h' e L := by
  have hok := nodesOk_split hg hL he helim ha
  have hsplit := takeWhile_append_dropWhile (p := fun c : Extent => decide (c.base < e.base)) (l := L)
  set A := L.takeWhile fun c => c.base < e.base with hA
  set B := L.dropWhile fun c => c.base < e.base with hB
  set h₁ := h.setAlign e.base 16 with hh₁
  have hr₁ : RepLarge h₁ L := hr.congr rfl fun c hc => by
    refine OnlyHdrs.sameHdr (onlyHdrs_setAlign h _ _) fun a ha => ?_
    obtain rfl := mem_singleton.mp ha
    exact hok.hdr_apart (mem_append.mp (hsplit ▸ hc))
  have hspot : findLargeSpot h₁.mem e.base walkFuel 0 h₁.freeLarge =
      some (lastBase 0 A, headBase B) := findLargeSpot_spec hr₁.seg hL.length_lt
  refine ⟨(((h₁.setNext e.base (headBase B)).setLink (lastBase 0 A) e.base).coalesce e.base
    (headBase B)).coalescePrev (lastBase 0 A) e.base, ?_, ⟨?_, ?_, ?_⟩⟩
  · rw [insertLargeNode, if_neg (by simp [he0, hcan])]
    show (findLargeSpot h₁.mem e.base walkFuel 0 h₁.freeLarge).map _ = _
    rw [hspot]
    rfl
  · rw [← hsplit] at hr₁ hg
    exact hr₁.insertBetween hok hg he0 ((size_setAlign h _ _).trans hes)
  · have hprev : lastBase 0 A ≠ 0 → lastBase 0 A ∈ e.base :: L.map Extent.base := by
      intro hne
      rcases eq_nil_or_concat A with hA' | ⟨A', p, hA'⟩
      · simp [hA'] at hne
      · rw [hA', concat_eq_append, lastBase_concat, ← hsplit, hA']
        simp
    have hself : ∀ {m m' : ByteMem}, OnlyHdrs [e.base] m m' →
        OnlyHdrs (e.base :: L.map Extent.base) m m' := fun ho => ho.mono (by simp)
    exact (hself (onlyHdrs_setAlign h _ _)).trans <| (hself (onlyHdrs_setNext _ _ _)).trans <|
      (onlyHdrs_setLink hprev).trans <| (hself (onlyHdrs_coalesce _ _ _)).trans <|
      onlyHdrs_coalescePrev hprev
  · have hnext : SameVars h (h₁.setNext e.base (headBase B)) := ⟨rfl, rfl, rfl, rfl⟩
    exact hnext.trans <| (sameVars_setLink _ _ _).trans <|
      (sameVars_coalesce _ _ _).trans (sameVars_coalescePrev _ _ _)

end Kheap

end Neptune
