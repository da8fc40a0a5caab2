import Mathlib.Data.List.Infix
import Mathlib.Data.List.TakeWhile
import Mathlib.Tactic.Linarith

/-!
# Extents and coalescing free lists

An `Extent` is a stretch of addresses.  `Extent.Apart` says two of them share no
address; a list is `Gapped` when it is in increasing order with at least one
address between neighbours, which is what an address-ordered, coalesced free
list looks like.  `insertExtent` puts an extent into such a list and joins it
with the neighbours it touches.

## Main results

* `gapped_insertExtent` — a coalesced list stays coalesced.
* `covers_insertExtent` — insertion adds the addresses of the new extent and no others.
* `apart_insertExtent` — insertion covers no address that neither the list nor
  the new extent covered.
-/

/-- The addresses `[base, base + size)`. -/
@[ext] structure Extent where
  base : ℕ
  size : ℕ
  deriving DecidableEq, Repr, Inhabited

namespace Extent

open List

/-- The first address after an extent. -/
def limit (e : Extent) : ℕ := e.base + e.size

/-- The address is in the extent. -/
def Has (e : Extent) (x : ℕ) : Prop := e.base ≤ x ∧ x < e.limit

/-- The address is in one of the extents. -/
def Covers (l : List Extent) (x : ℕ) : Prop := ∃ e ∈ l, e.Has x

/-- Two extents share no address. -/
def Apart (e f : Extent) : Prop := e.limit ≤ f.base ∨ f.limit ≤ e.base

/-- Every address of the extent lies in `[lo, hi)`. -/
def Within (e : Extent) (lo hi : ℕ) : Prop := lo ≤ e.base ∧ e.limit ≤ hi

instance (e f : Extent) : Decidable (Apart e f) := inferInstanceAs (Decidable (_ ∨ _))

instance (e : Extent) (lo hi : ℕ) : Decidable (e.Within lo hi) :=
  inferInstanceAs (Decidable (_ ∧ _))

theorem Apart.symm {e f : Extent} (h : Apart e f) : Apart f e := Or.symm h

/-- A part of an extent is apart from whatever the extent is apart from. -/
theorem Apart.of_within {e e' f : Extent} (h : Apart e f) (hs : e'.Within e.base e.limit) :
    Apart e' f := by
  unfold Apart Within at *
  omega

/-- Joining two touching extents covers nothing new. -/
theorem Apart.join {e c g : Extent} (hg : 0 < g.size) (he : Apart g e) (hc : Apart g c)
    (htouch : e.limit = c.base) : Apart g ⟨e.base, e.size + c.size⟩ := by
  unfold Apart limit at *
  dsimp only at *
  omega

/-- Increasing, with a gap between neighbours. -/
def Gapped (l : List Extent) : Prop := l.Pairwise fun e f => e.limit < f.base

/-- Put `e` before `l`, joined with the first extent of `l` if it touches it. -/
def joinHead (e : Extent) : List Extent → List Extent
  | [] => [e]
  | c :: l => if e.limit = c.base then ⟨e.base, e.size + c.size⟩ :: l else e :: c :: l

/-- Put `e` between `l₁` and `l₂`, joined with the neighbours it touches. -/
def joinAt (l₁ : List Extent) (e : Extent) (l₂ : List Extent) : List Extent :=
  match l₁.getLast? with
  | none => joinHead e l₂
  | some p => l₁.dropLast ++ joinHead p (joinHead e l₂)

/-- Insert an extent into an address-ordered list, coalescing. -/
def insertExtent (e : Extent) (l : List Extent) : List Extent :=
  joinAt (l.takeWhile fun c => c.base < e.base) e (l.dropWhile fun c => c.base < e.base)

@[simp] theorem joinAt_nil (e : Extent) (l : List Extent) : joinAt [] e l = joinHead e l := rfl

@[simp] theorem joinAt_concat (l₁ : List Extent) (p e : Extent) (l₂ : List Extent) :
    joinAt (l₁ ++ [p]) e l₂ = l₁ ++ joinHead p (joinHead e l₂) := by
  simp [joinAt]

/-- The extents of a joined list: the old ones, the new one, or a join. -/
theorem mem_joinHead {e f : Extent} {l : List Extent} (h : f ∈ joinHead e l) :
    f = e ∨ f ∈ l ∨ ∃ c ∈ l, e.limit = c.base ∧ f = ⟨e.base, e.size + c.size⟩ := by
  cases l with
  | nil => simpa [joinHead] using h
  | cons c l =>
    simp only [joinHead] at h
    split at h
    · next htouch =>
      rcases mem_cons.mp h with rfl | h
      · exact .inr (.inr ⟨c, mem_cons_self, htouch, rfl⟩)
      · exact .inr (.inl (mem_cons_of_mem _ h))
    · rcases mem_cons.mp h with rfl | h
      · exact .inl rfl
      · exact .inr (.inl h)

theorem joinHead_base_le {e f : Extent} {l : List Extent} (h : f ∈ joinHead e l)
    (hl : ∀ c ∈ l, e.limit ≤ c.base) : e.base ≤ f.base := by
  rcases mem_joinHead h with rfl | h | ⟨c, -, -, rfl⟩
  · exact le_rfl
  · have := hl f h
    unfold limit at this
    omega
  · exact le_rfl

theorem joinHead_apart {e g : Extent} {l : List Extent} (hg : 0 < g.size) (he : Apart g e)
    (hl : ∀ c ∈ l, Apart g c) : ∀ f ∈ joinHead e l, Apart g f := by
  intro f hf
  rcases mem_joinHead hf with rfl | hf | ⟨c, hc, htouch, rfl⟩
  · exact he
  · exact hl f hf
  · exact Apart.join hg he (hl c hc) htouch

theorem joinHead_within {e : Extent} {l : List Extent} {lo hi : ℕ} (he : e.Within lo hi)
    (hl : ∀ c ∈ l, c.Within lo hi) : ∀ f ∈ joinHead e l, f.Within lo hi := by
  intro f hf
  rcases mem_joinHead hf with rfl | hf | ⟨c, hc, htouch, rfl⟩
  · exact he
  · exact hl f hf
  · have := hl c hc
    unfold Within limit at *
    dsimp only at *
    omega

theorem joinHead_size_le {n : ℕ} {e : Extent} {l : List Extent} (he : n ≤ e.size)
    (hl : ∀ c ∈ l, n ≤ c.size) : ∀ f ∈ joinHead e l, n ≤ f.size := by
  intro f hf
  rcases mem_joinHead hf with rfl | hf | ⟨c, hc, -, rfl⟩
  · exact he
  · exact hl f hf
  · exact le_trans he (Nat.le_add_right _ _)

theorem gapped_joinHead {e : Extent} {l : List Extent} (hl : Gapped l)
    (hpos : ∀ c ∈ l, 0 < c.size) (he : ∀ c ∈ l, e.limit ≤ c.base) : Gapped (joinHead e l) := by
  cases l with
  | nil => exact pairwise_singleton _ _
  | cons c l =>
    obtain ⟨hc, hl'⟩ := pairwise_cons.mp hl
    simp only [joinHead]
    split
    · next htouch =>
      refine pairwise_cons.mpr ⟨fun d hd => ?_, hl'⟩
      have := hc d hd
      unfold limit at *
      dsimp only
      omega
    · next htouch =>
      refine pairwise_cons.mpr ⟨fun d hd => ?_, hl⟩
      have h1 := he c mem_cons_self
      have h2 := hpos c mem_cons_self
      rcases mem_cons.mp hd with rfl | hd
      · omega
      · have := hc d hd
        unfold limit at *
        omega

section joinAt

variable {l₁ l₂ : List Extent} {e : Extent}

/-- Whatever is apart from all parts is apart from the joined list. -/
theorem joinAt_apart {g : Extent} (hg : 0 < g.size) (he : Apart g e)
    (h₁ : ∀ c ∈ l₁, Apart g c) (h₂ : ∀ c ∈ l₂, Apart g c) : ∀ f ∈ joinAt l₁ e l₂, Apart g f := by
  rcases eq_nil_or_concat l₁ with rfl | ⟨l, p, rfl⟩
  · simpa using joinHead_apart hg he h₂
  · intro f hf
    rw [concat_eq_append, joinAt_concat, mem_append] at hf
    rcases hf with hf | hf
    · exact h₁ f (by simp [hf])
    · exact joinHead_apart hg (h₁ p (by simp)) (joinHead_apart hg he h₂) f hf

theorem joinAt_within {lo hi : ℕ} (he : e.Within lo hi) (h₁ : ∀ c ∈ l₁, c.Within lo hi)
    (h₂ : ∀ c ∈ l₂, c.Within lo hi) : ∀ f ∈ joinAt l₁ e l₂, f.Within lo hi := by
  rcases eq_nil_or_concat l₁ with rfl | ⟨l, p, rfl⟩
  · simpa using joinHead_within he h₂
  · intro f hf
    rw [concat_eq_append, joinAt_concat, mem_append] at hf
    rcases hf with hf | hf
    · exact h₁ f (by simp [hf])
    · exact joinHead_within (h₁ p (by simp)) (joinHead_within he h₂) f hf

theorem joinAt_size_le {n : ℕ} (he : n ≤ e.size) (h₁ : ∀ c ∈ l₁, n ≤ c.size)
    (h₂ : ∀ c ∈ l₂, n ≤ c.size) : ∀ f ∈ joinAt l₁ e l₂, n ≤ f.size := by
  rcases eq_nil_or_concat l₁ with rfl | ⟨l, p, rfl⟩
  · simpa using joinHead_size_le he h₂
  · intro f hf
    rw [concat_eq_append, joinAt_concat, mem_append] at hf
    rcases hf with hf | hf
    · exact h₁ f (by simp [hf])
    · exact joinHead_size_le (h₁ p (by simp)) (joinHead_size_le he h₂) f hf

/-- Joining in between two gapped lists keeps the gaps. -/
theorem gapped_joinAt (h : Gapped (l₁ ++ l₂)) (hpos : ∀ c ∈ l₁ ++ l₂, 0 < c.size)
    (hepos : 0 < e.size) (h₁ : ∀ c ∈ l₁, c.limit ≤ e.base) (h₂ : ∀ c ∈ l₂, e.limit ≤ c.base) :
    Gapped (joinAt l₁ e l₂) := by
  obtain ⟨hg₁, hg₂, hcross⟩ := pairwise_append.mp h
  have hpos₂ : ∀ c ∈ l₂, 0 < c.size := fun c hc => hpos c (by simp [hc])
  have hin : Gapped (joinHead e l₂) := gapped_joinHead hg₂ hpos₂ h₂
  rcases eq_nil_or_concat l₁ with rfl | ⟨l, p, rfl⟩
  · simpa using hin
  rw [concat_eq_append] at *
  rw [joinAt_concat]
  have hpin : ∀ f ∈ joinHead e l₂, p.limit ≤ f.base := fun f hf =>
    le_trans (h₁ p (by simp)) (joinHead_base_le hf h₂)
  have hinpos : ∀ f ∈ joinHead e l₂, 0 < f.size := joinHead_size_le hepos hpos₂
  obtain ⟨hgl, -, hlp⟩ := pairwise_append.mp hg₁
  refine pairwise_append.mpr ⟨hgl, gapped_joinHead hin hinpos hpin, ?_⟩
  -- an extent before `p` keeps its gap to `p`, and everything after starts no lower
  intro c hc f hf
  have hcp := hlp c hc p (by simp)
  exact lt_of_lt_of_le hcp (joinHead_base_le hf hpin)

end joinAt

/-- The extents the search for a place passes over lie below the new one. -/
theorem takeWhile_limit_le {e : Extent} {l : List Extent} (hepos : 0 < e.size)
    (ha : ∀ c ∈ l, Apart e c) : ∀ c ∈ l.takeWhile (fun c => c.base < e.base), c.limit ≤ e.base := by
  intro c hc
  have hlt : c.base < e.base := by simpa using mem_takeWhile_imp hc
  have := ha c ((List.takeWhile_prefix _).subset hc)
  unfold Apart limit at *
  omega

/-- In a gapped list everything from the first extent not below the new one on
lies above it. -/
theorem le_dropWhile_base {e : Extent} {l : List Extent} (hl : Gapped l)
    (hpos : ∀ c ∈ l, 0 < c.size) (ha : ∀ c ∈ l, Apart e c) :
    ∀ c ∈ l.dropWhile (fun c => c.base < e.base), e.limit ≤ c.base := by
  intro c hc
  have hsub := dropWhile_sublist (fun c : Extent => decide (c.base < e.base)) (l := l)
  have hge : e.base ≤ c.base := by
    cases hd : l.dropWhile (fun c => decide (c.base < e.base)) with
    | nil => rw [hd] at hc; cases hc
    | cons d t =>
      have hdge : ¬ d.base < e.base := by
        have := head?_dropWhile_not (fun c : Extent => decide (c.base < e.base)) l
        rw [hd] at this
        simpa using this
      have hgd : Gapped (d :: t) := hd ▸ hl.sublist hsub
      rw [hd] at hc
      rcases mem_cons.mp hc with rfl | hc
      · omega
      · have := (pairwise_cons.mp hgd).1 c hc
        unfold limit at this
        omega
  have h1 := ha c (hsub.subset hc)
  have h2 := hpos c (hsub.subset hc)
  unfold Apart limit at *
  omega

section insertExtent

variable {e : Extent} {l : List Extent}

/-- **A coalesced list stays coalesced.** -/
theorem gapped_insertExtent (hl : Gapped l) (hpos : ∀ c ∈ l, 0 < c.size) (hepos : 0 < e.size)
    (ha : ∀ c ∈ l, Apart e c) : Gapped (insertExtent e l) := by
  refine gapped_joinAt ?_ ?_ hepos (takeWhile_limit_le hepos ha) (le_dropWhile_base hl hpos ha)
  · rw [takeWhile_append_dropWhile]; exact hl
  · rw [takeWhile_append_dropWhile]; exact hpos

/-- **Insertion covers nothing new.** -/
theorem apart_insertExtent {g : Extent} (hg : 0 < g.size) (he : Apart g e)
    (hl : ∀ c ∈ l, Apart g c) : ∀ f ∈ insertExtent e l, Apart g f :=
  joinAt_apart hg he (fun c hc => hl c ((List.takeWhile_prefix _).subset hc))
    (fun c hc => hl c ((dropWhile_sublist _).subset hc))

theorem within_insertExtent {lo hi : ℕ} (he : e.Within lo hi) (hl : ∀ c ∈ l, c.Within lo hi) :
    ∀ f ∈ insertExtent e l, f.Within lo hi :=
  joinAt_within he (fun c hc => hl c ((List.takeWhile_prefix _).subset hc))
    (fun c hc => hl c ((dropWhile_sublist _).subset hc))

theorem size_le_insertExtent {n : ℕ} (he : n ≤ e.size) (hl : ∀ c ∈ l, n ≤ c.size) :
    ∀ f ∈ insertExtent e l, n ≤ f.size :=
  joinAt_size_le he (fun c hc => hl c ((List.takeWhile_prefix _).subset hc))
    (fun c hc => hl c ((dropWhile_sublist _).subset hc))

@[simp] theorem covers_nil {x : ℕ} : Covers [] x ↔ False := by simp [Covers]

@[simp] theorem covers_cons {x : ℕ} : Covers (e :: l) x ↔ e.Has x ∨ Covers l x := by simp [Covers]

@[simp] theorem covers_append {l' : List Extent} {x : ℕ} :
    Covers (l ++ l') x ↔ Covers l x ∨ Covers l' x := by
  simp only [Covers, mem_append, or_and_right, exists_or]

@[simp] theorem covers_joinHead {x : ℕ} : Covers (joinHead e l) x ↔ e.Has x ∨ Covers l x := by
  cases l with
  | nil => exact covers_cons
  | cons c l =>
    rw [joinHead]
    split
    · next htouch =>
      have hjoin : (⟨e.base, e.size + c.size⟩ : Extent).Has x ↔ e.Has x ∨ c.Has x := by
        unfold Has limit at *
        dsimp only
        omega
      rw [covers_cons, hjoin, covers_cons, or_assoc]
    · exact covers_cons

/-- **Insertion adds the addresses of the new extent.** -/
theorem covers_insertExtent {x : ℕ} : Covers (insertExtent e l) x ↔ Covers l x ∨ e.Has x := by
  have hsplit := takeWhile_append_dropWhile (p := fun c : Extent => decide (c.base < e.base)) (l := l)
  rw [insertExtent]
  set A := l.takeWhile fun c => c.base < e.base
  set B := l.dropWhile fun c => c.base < e.base
  rw [← hsplit]
  rcases eq_nil_or_concat A with hA | ⟨A', p, hA⟩
  · rw [hA, joinAt_nil, covers_joinHead]
    exact or_comm
  · rw [hA, concat_eq_append, joinAt_concat]
    simp only [covers_append, covers_joinHead, covers_cons, covers_nil, or_false]
    rw [or_assoc, or_assoc, or_comm (a := e.Has x)]

/-- An extent that touches nothing is put in as it is. -/
theorem insertExtent_of_gapped {l' : List Extent} (h : Gapped (l ++ e :: l')) :
    insertExtent e (l ++ l') = l ++ e :: l' := by
  obtain ⟨-, hel', hcross⟩ := pairwise_append.mp h
  have hbelow : ∀ c ∈ l, c.base < e.base := by
    intro c hc
    exact lt_of_le_of_lt (Nat.le_add_right _ _) (hcross c hc e mem_cons_self)
  have habove : ∀ c ∈ l', e.limit < c.base := (pairwise_cons.mp hel').1
  have hjoin : joinHead e l' = e :: l' := by
    cases l' with
    | nil => rfl
    | cons c l' => exact if_neg (habove c mem_cons_self).ne
  have htake : (l ++ l').takeWhile (fun c => c.base < e.base) = l := by
    rw [takeWhile_append_of_pos (by simpa using hbelow)]
    cases l' with
    | nil => exact append_nil l
    | cons c l' =>
      have hc : e.base < c.base :=
        lt_of_le_of_lt (Nat.le_add_right _ _) (habove c mem_cons_self)
      rw [takeWhile_cons_of_neg (by simpa using hc.le), append_nil]
  have hdrop : (l ++ l').dropWhile (fun c => c.base < e.base) = l' :=
    append_cancel_left ((congrArg (· ++ _) htake).symm.trans takeWhile_append_dropWhile)
  rw [insertExtent, htake, hdrop]
  rcases eq_nil_or_concat l with rfl | ⟨l₀, p, rfl⟩
  · exact hjoin
  · have hp : p.limit < e.base := hcross p (by simp) e mem_cons_self
    rw [concat_eq_append, joinAt_concat, hjoin, joinHead, if_neg hp.ne, append_assoc]
    rfl

end insertExtent

/-- Parts of one extent take its place. -/
theorem Gapped.replace {A B P : List Extent} {e : Extent} (h : Gapped (A ++ e :: B)) (hP : Gapped P)
    (hpart : ∀ p ∈ P, p.Within e.base e.limit) : Gapped (A ++ P ++ B) := by
  obtain ⟨hA, heB, hcross⟩ := pairwise_append.mp h
  obtain ⟨hB, hB'⟩ := pairwise_cons.mp heB
  have hAP : Gapped (A ++ P) := pairwise_append.mpr
    ⟨hA, hP, fun c hc p hp => lt_of_lt_of_le (hcross c hc e mem_cons_self) (hpart p hp).1⟩
  refine pairwise_append.mpr ⟨hAP, hB', ?_⟩
  intro c hc d hd
  rcases mem_append.mp hc with hc | hc
  · exact hcross c hc d (mem_cons_of_mem _ hd)
  · exact lt_of_le_of_lt (hpart c hc).2 (hB d hd)

/-- A gapped list is pairwise apart. -/
theorem Gapped.pairwise_apart {l : List Extent} (h : Gapped l) : l.Pairwise Apart :=
  h.imp fun hlt => .inl (le_of_lt hlt)

end Extent
