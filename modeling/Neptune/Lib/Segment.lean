import Mathlib.Data.List.Perm.Basic

/-!
# Linked list segments

`Seg next p l q` says that following `next` from `p` visits the non-null nodes
`l` in turn and arrives at `q`; a null-terminated list is a segment that ends at
`0`.  The edits of a singly linked list are then local: `Seg.congr` moves a
segment to links that agree on its nodes, `Seg.append_iff` cuts it at a node and
`Seg.relink` redirects its last node.
-/

open Function (update)

/-- Following `next` from `p` visits `l` and arrives at `q`. -/
def Seg (next : ℕ → ℕ) : ℕ → List ℕ → ℕ → Prop
  | p, [], q => p = q
  | p, a :: l, q => p = a ∧ a ≠ 0 ∧ Seg next (next a) l q

namespace Seg

open Function List

variable {next next' : ℕ → ℕ} {p q : ℕ} {l : List ℕ}

@[simp] theorem nil_iff : Seg next p [] q ↔ p = q := Iff.rfl

@[simp] theorem cons_iff {a : ℕ} :
    Seg next p (a :: l) q ↔ p = a ∧ a ≠ 0 ∧ Seg next (next a) l q := Iff.rfl

/-- A segment reads only the links of its own nodes. -/
theorem congr (h : Seg next p l q) (hn : ∀ a ∈ l, next' a = next a) : Seg next' p l q := by
  induction l generalizing p with
  | nil => exact h
  | cons a l ih =>
    obtain ⟨rfl, ha, hl⟩ := h
    refine ⟨rfl, ha, ?_⟩
    rw [hn p mem_cons_self]
    exact ih hl fun b hb => hn b (mem_cons_of_mem _ hb)

theorem append_iff {l₁ l₂ : List ℕ} :
    Seg next p (l₁ ++ l₂) q ↔ ∃ r, Seg next p l₁ r ∧ Seg next r l₂ q := by
  induction l₁ generalizing p with
  | nil => simp
  | cons a l₁ ih =>
    simp only [cons_append, cons_iff, ih]
    constructor
    · rintro ⟨h1, h2, r, h3, h4⟩; exact ⟨r, ⟨h1, h2, h3⟩, h4⟩
    · rintro ⟨r, ⟨h1, h2, h3⟩, h4⟩; exact ⟨h1, h2, r, h3, h4⟩

theorem ne_zero (h : Seg next p l q) : ∀ a ∈ l, a ≠ 0 := by
  induction l generalizing p with
  | nil => intro a ha; cases ha
  | cons b l ih =>
    obtain ⟨rfl, hb, hl⟩ := h
    intro a ha
    rcases mem_cons.mp ha with rfl | ha
    · exact hb
    · exact ih hl a ha

/-- A null-terminated list is empty exactly when its head pointer is null. -/
theorem eq_nil_iff (h : Seg next p l 0) : l = [] ↔ p = 0 := by
  cases l with
  | nil => simpa using h
  | cons a l =>
    obtain ⟨rfl, ha, -⟩ := h
    simp [ha]

/-- A node that is not the last one has a successor. -/
theorem next_ne_zero {z : ℕ} (h : Seg next p (l ++ [z]) q) : ∀ a ∈ l, next a ≠ 0 := by
  induction l generalizing p with
  | nil => intro a ha; cases ha
  | cons b l ih =>
    obtain ⟨rfl, -, hl⟩ := h
    intro a ha
    rcases mem_cons.mp ha with rfl | ha
    · cases l with
      | nil => exact hl.1 ▸ hl.2.1
      | cons c l => exact hl.1 ▸ hl.2.1
    · exact ih hl a ha

/-- The head pointer of a null-terminated list. -/
theorem eq_head (h : Seg next p l 0) : p = l.head?.getD 0 := by
  cases l with
  | nil => exact h
  | cons a l => exact h.1

/-- Redirect the last node of a segment. -/
theorem relink {a r : ℕ} (h : Seg next p (l ++ [a]) q) (hl : ∀ b ∈ l, next' b = next b)
    (ha : next' a = r) : Seg next' p (l ++ [a]) r := by
  rw [append_iff] at h ⊢
  obtain ⟨s, h1, rfl, ha0, -⟩ := h
  exact ⟨s, h1.congr hl, rfl, ha0, ha⟩

/-- Put a node at the end of a null-terminated list. -/
theorem concat {x : ℕ} (h : Seg next p (l ++ [q]) 0) (hx : x ≠ 0)
    (hl : ∀ b ∈ l, next' b = next b) (hq : next' q = x) (hx0 : next' x = 0) :
    Seg next' p (l ++ [q] ++ [x]) 0 :=
  append_iff.mpr ⟨x, h.relink hl hq, rfl, hx, hx0⟩

/-- Take a node out of a null-terminated list, behind another one. -/
theorem remove {a x : ℕ} {l' : List ℕ} (h : Seg next p (l ++ [a] ++ x :: l') 0)
    (hl : ∀ b ∈ l, next' b = next b) (ha : next' a = next x)
    (hl' : ∀ b ∈ l', next' b = next b) : Seg next' p (l ++ [a] ++ l') 0 := by
  obtain ⟨r, h1, rfl, -, h2⟩ := append_iff.mp h
  exact append_iff.mpr ⟨_, h1.relink hl ha, h2.congr hl'⟩

/-- Put a node at the end of a null-terminated list of which the last node is known. -/
theorem push {head tail t : ℕ} (h : Seg next head l 0) (htail : tail = l.getLast?.getD 0)
    (hn : l.Nodup) (ht : t ≠ 0) (hl : t ∉ l) :
    Seg (if tail ≠ 0 then update (update next t 0) tail t else update next t 0)
      (if tail ≠ 0 then head else t) (l ++ [t]) 0 := by
  rcases eq_nil_or_concat l with rfl | ⟨l₀, z, hlz⟩
  · have htail0 : ¬tail ≠ 0 := not_not.mpr htail
    rw [if_neg htail0, if_neg htail0]
    exact ⟨rfl, ht, update_self ..⟩
  · rw [concat_eq_append] at hlz
    subst hlz
    obtain rfl : tail = z := by simpa using htail
    have hz := h.ne_zero tail (by simp)
    have hnodup := nodup_append.mp hn
    have htz : t ≠ tail := fun e => hl (by simp [e])
    rw [if_pos hz, if_pos hz]
    refine h.concat ht (fun c hc => ?_) (update_self ..) ?_
    · have hcz : c ≠ tail := hnodup.2.2 c hc tail (by simp)
      have hct : c ≠ t := fun e => hl (by simp [← e, hc])
      rw [update_of_ne hcz, update_of_ne hct]
    · rw [update_of_ne htz, update_self]

/-- Going round a null-terminated list, from behind a node to that node. -/
theorem round {head c : ℕ} {a b : List ℕ} (h : Seg next head (a ++ c :: b) 0) {succ : ℕ → ℕ}
    (hsucc : ∀ t, succ t = if next t = 0 then head else next t) :
    Seg succ (succ c) (b ++ (a ++ [c])) (succ c) := by
  have hkeep : ∀ {p q : ℕ} {l : List ℕ} {z : ℕ}, Seg next p (l ++ [z]) q → ∀ t ∈ l,
      succ t = next t := fun hseg t ht => by rw [hsucc, if_neg (hseg.next_ne_zero t ht)]
  rw [← singleton_append, ← append_assoc] at h
  obtain ⟨r, ha, hb⟩ := append_iff.mp h
  have hr : next c = r := by
    obtain ⟨r', -, rfl, -, hr⟩ := append_iff.mp ha
    exact hr
  rcases eq_nil_or_concat b with rfl | ⟨b₀, z, hbz⟩
  · have hr0 : r = 0 := hb
    have hc : succ c = head := by rw [hsucc, hr, if_pos hr0]
    have hround := ha.relink (hkeep ha) hc
    rwa [← hc] at hround
  · rw [concat_eq_append] at hbz
    subst hbz
    have hr0 : r ≠ 0 := by
      intro hr0
      have := (eq_nil_iff hb).mpr hr0
      simp at this
    have hc : succ c = r := by rw [hsucc, hr, if_neg hr0]
    have hz : succ z = head := by
      obtain ⟨-, -, -, -, hend⟩ := append_iff.mp hb
      have hz0 : next z = 0 := hend
      rw [hsucc, if_pos hz0]
    rw [hc]
    exact append_iff.mpr ⟨head, hb.relink (hkeep hb) hz, ha.relink (hkeep ha) hc⟩

end Seg

/-- The nodes that following `next` from `p` visits, `n` of them at most. -/
def walk (next : ℕ → ℕ) : ℕ → ℕ → List ℕ
  | 0, _ => []
  | n + 1, p => if p = 0 then [] else p :: walk next n (next p)

theorem Seg.walk_eq {next : ℕ → ℕ} {p : ℕ} {l : List ℕ} (h : Seg next p l 0) {n : ℕ}
    (hn : l.length ≤ n) : walk next n p = l := by
  induction l generalizing p n with
  | nil =>
    obtain rfl : p = 0 := h
    cases n <;> rfl
  | cons a l ih =>
    obtain ⟨rfl, ha, hl⟩ := h
    obtain ⟨n, rfl⟩ : ∃ m, n = m + 1 := ⟨n - 1, by simp at hn; omega⟩
    rw [walk, if_neg ha, ih hl (by simpa using hn)]

/-! ### Doubly linked lists -/

/-- Following `next` from `head` and `prev` from `tail` visits `l`, once each way. -/
structure DList (next prev : ℕ → ℕ) (head tail : ℕ) (l : List ℕ) : Prop where
  fwd : Seg next head l 0
  bwd : Seg prev tail l.reverse 0
  nodup : l.Nodup

namespace DList

open Function List

variable {next prev : ℕ → ℕ} {head tail t : ℕ} {l a b : List ℕ}

theorem ne_zero (h : DList next prev head tail l) : ∀ t ∈ l, t ≠ 0 := h.fwd.ne_zero

/-- Read backwards it is a doubly linked list too. -/
theorem reverse (h : DList next prev head tail l) : DList prev next tail head l.reverse :=
  ⟨h.bwd, by rw [reverse_reverse]; exact h.fwd, (reverse_perm l).nodup_iff.mpr h.nodup⟩

theorem tail_eq (h : DList next prev head tail l) : tail = l.getLast?.getD 0 := by
  rw [h.bwd.eq_head, head?_reverse]

/-- Append a node. -/
theorem append (h : DList next prev head tail l) (ht : t ≠ 0) (hl : t ∉ l) :
    DList (if tail ≠ 0 then update (update next t 0) tail t else update next t 0)
      (update prev t tail) (if tail ≠ 0 then head else t) t (l ++ [t]) := by
  have hbwd : Seg (update prev t tail) t (l ++ [t]).reverse 0 := by
    rw [reverse_append]
    refine ⟨rfl, ht, ?_⟩
    rw [update_self]
    refine h.bwd.congr fun c hc => update_of_ne ?_ _ _
    exact fun e => hl (e ▸ mem_reverse.mp hc)
  refine ⟨h.fwd.push h.tail_eq h.nodup ht hl, hbwd,
    nodup_append.mpr ⟨h.nodup, by simp, fun c hc d hd => ?_⟩⟩
  rw [mem_singleton.mp hd]
  exact fun e => hl (e ▸ hc)

theorem prev_eq (h : DList next prev head tail (a ++ t :: b)) : prev t = a.getLast?.getD 0 := by
  have hb := h.bwd
  rw [reverse_append, reverse_cons, append_assoc, singleton_append] at hb
  obtain ⟨r, -, rfl, -, hr⟩ := Seg.append_iff.mp hb
  rw [hr.eq_head, head?_reverse]

/-- The forward half of removing a node. -/
theorem remove_fwd (h : DList next prev head tail (a ++ t :: b)) :
    Seg (update (if prev t ≠ 0 then update next (prev t) (next t) else next) t 0)
      (if prev t ≠ 0 then head else next t) (a ++ b) 0 := by
  have hprev := h.prev_eq
  obtain ⟨-, hb, hab⟩ := nodup_append.mp h.nodup
  have htb : t ∉ b := (nodup_cons.mp hb).1
  rcases eq_nil_or_concat a with rfl | ⟨a₀, z, haz⟩
  · have hprev0 : ¬prev t ≠ 0 := not_not.mpr hprev
    rw [if_neg hprev0, if_neg hprev0]
    obtain ⟨-, -, hseg⟩ := h.fwd
    refine hseg.congr fun c hc => update_of_ne ?_ _ _
    exact fun e => htb (e ▸ hc)
  · rw [concat_eq_append] at haz
    subst haz
    have hz : prev t = z := by simpa using hprev
    have hz0 : z ≠ 0 := h.ne_zero z (by simp)
    have hzt : z ≠ t := hab z (by simp) t mem_cons_self
    have hanodup := nodup_append.mp (nodup_append.mp h.nodup).1
    rw [hz, if_pos hz0, if_pos hz0]
    refine h.fwd.remove (fun c hc => ?_) ?_ (fun c hc => ?_)
    · have hct : c ≠ t := hab c (by simp [hc]) t mem_cons_self
      have hcz : c ≠ z := hanodup.2.2 c hc z (by simp)
      rw [update_of_ne hct, update_of_ne hcz]
    · rw [update_of_ne hzt, update_self]
    · have hct : c ≠ t := fun e => htb (e ▸ hc)
      have hcz : c ≠ z := fun e => hab z (by simp) c (mem_cons_of_mem _ hc) e.symm
      rw [update_of_ne hct, update_of_ne hcz]

/-- Remove a node. -/
theorem remove (h : DList next prev head tail (a ++ t :: b)) :
    DList (update (if prev t ≠ 0 then update next (prev t) (next t) else next) t 0)
      (update (if next t ≠ 0 then update prev (next t) (prev t) else prev) t 0)
      (if prev t ≠ 0 then head else next t) (if next t ≠ 0 then tail else prev t) (a ++ b) := by
  have hrev : DList prev next tail head (b.reverse ++ t :: a.reverse) := by
    have hr := h.reverse
    rwa [reverse_append, reverse_cons, append_assoc] at hr
  refine ⟨h.remove_fwd, ?_, h.nodup.sublist (by simp)⟩
  rw [reverse_append]
  exact hrev.remove_fwd

end DList

/-! ### Families of lists -/

/-- Pushing onto one list of a family adds one element to all of them together. -/
theorem perm_flatMap_push {α : Type*} (f : ℕ → List α) (a : α) {n i : ℕ} (hi : i < n) :
    ((List.range n).flatMap (Function.update f i (a :: f i))).Perm (a :: (List.range n).flatMap f) := by
  induction n with
  | zero => omega
  | succ n ih =>
    rw [List.range_succ, List.flatMap_append, List.flatMap_append, List.flatMap_singleton,
      List.flatMap_singleton]
    rcases Nat.lt_succ_iff_lt_or_eq.mp hi with hlt | rfl
    · rw [Function.update_of_ne (by omega)]
      exact (ih hlt).append_right _
    · have hsame : (List.range i).flatMap (Function.update f i (a :: f i)) =
          (List.range i).flatMap f := by
        refine List.flatMap_congr fun j hj => ?_
        rw [Function.update_of_ne (by have := List.mem_range.mp hj; omega)]
      rw [hsame, Function.update_self]
      exact List.perm_middle
