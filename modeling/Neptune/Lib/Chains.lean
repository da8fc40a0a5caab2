import Mathlib.Data.List.Basic

/-!
# Chains in a table of links

A table gives every cell a link: free, the end of a chain, or another cell.  A table is sound if
links lead to cells in use, no two lead to the same one, and every chain ends; then it is a disjoint
union of finite chains, each with its head.

Two operations build chains: a free cell becomes a chain of its own (`claim`), and such a cell is
appended to a chain at its end (`extend`).

## Main definitions

* `Link`, `Chain t a l` — the chain from the cell `a` on is `l`.
* `SoundTable` — a disjoint union of finite chains.
* `IsHead` — no link leads there.
* `claim`, `extend` — the operations.

## Main results

* `SoundTable.claim`, `SoundTable.extend` — they keep the table sound.
* `Chain.claim`, `Chain.extend_mem`, `Chain.extend_notMem` — what becomes of the chains.
* `SoundTable.heads_disjoint` — chains of different heads have no cell in common.
-/

/-- What a table has for a cell. -/
inductive Link (α : Type*)
  | free
  | last
  | next (a : α)
  deriving DecidableEq

variable {α : Type*} {t t' : α → Link α} {a b c n : α} {l l' : List α}

/-- The chain from the cell `a` on, up to its end. -/
inductive Chain (t : α → Link α) : α → List α → Prop
  | last {a : α} : t a = .last → Chain t a [a]
  | next {a b : α} {l : List α} : t a = .next b → Chain t b l → Chain t a (a :: l)

/-- A disjoint union of finite chains. -/
structure SoundTable (t : α → Link α) : Prop where
  used : ∀ a b, t a = .next b → t b ≠ .free
  inj : ∀ a b c, t a = .next c → t b = .next c → a = b
  ends : ∀ a, t a ≠ .free → ∃ l, Chain t a l

/-- No link leads to the cell. -/
def IsHead (t : α → Link α) (a : α) : Prop := ∀ b, t b ≠ .next a

namespace Chain

theorem eq_cons (h : Chain t a l) : ∃ rest, l = a :: rest := by
  cases h <;> exact ⟨_, rfl⟩

theorem head (h : Chain t a l) : l.head? = some a := by
  cases h <;> rfl

theorem head_mem (h : Chain t a l) : a ∈ l := by
  cases h <;> exact List.mem_cons_self

theorem used (h : Chain t a l) : ∀ x ∈ l, t x ≠ .free := by
  induction h with
  | last ha =>
    intro x hx
    obtain rfl := List.mem_singleton.mp hx
    simp [ha]
  | next ha _ ih =>
    intro x hx
    rcases List.mem_cons.mp hx with rfl | hx
    · simp [ha]
    · exact ih x hx

/-- A cell has one chain. -/
theorem unique (h : Chain t a l) (h' : Chain t a l') : l = l' := by
  induction h generalizing l' with
  | last ha =>
    cases h' with
    | last _ => rfl
    | next ha' _ => simp [ha] at ha'
  | next ha _ ih =>
    cases h' with
    | last ha' => simp [ha] at ha'
    | next ha' hl' =>
      obtain rfl := Link.next.inj (ha.symm.trans ha')
      rw [ih hl']

/-- A chain depends on the links of its cells only. -/
theorem congr (h : Chain t a l) (ht : ∀ x ∈ l, t' x = t x) : Chain t' a l := by
  induction h with
  | last ha => exact .last ((ht _ List.mem_cons_self).trans ha)
  | next ha _ ih =>
    exact .next ((ht _ List.mem_cons_self).trans ha) (ih fun x hx => ht x (List.mem_cons_of_mem _ hx))

/-- The chain from a cell of a chain on is the rest of it. -/
theorem suffix (h : Chain t a l) (hb : b ∈ l) : ∃ pre l', l = pre ++ l' ∧ Chain t b l' := by
  induction h with
  | last ha =>
    obtain rfl := List.mem_singleton.mp hb
    exact ⟨[], _, rfl, .last ha⟩
  | @next a c l ha hl ih =>
    rcases List.mem_cons.mp hb with rfl | hb
    · exact ⟨[], _, rfl, .next ha hl⟩
    · obtain ⟨pre, l', rfl, hb'⟩ := ih hb
      exact ⟨a :: pre, l', rfl, hb'⟩

theorem nodup (h : Chain t a l) : l.Nodup := by
  induction h with
  | last ha => simp
  | @next a b l ha hl ih =>
    refine List.nodup_cons.mpr ⟨fun hmem => ?_, ih⟩
    -- a chain that came back to its head would be longer than itself
    obtain ⟨pre, l', hsplit, hl'⟩ := hl.suffix hmem
    have hlen := congrArg List.length (hl'.unique (.next ha hl))
    have := congrArg List.length hsplit
    rw [List.length_append] at this
    rw [List.length_cons] at hlen
    omega

/-- The chain from a cell of a chain on is what follows it there. -/
theorem split {pre post : List α} (h : Chain t a (pre ++ c :: post)) : Chain t c (c :: post) := by
  induction pre generalizing a with
  | nil =>
    obtain rfl := Option.some.inj h.head
    exact h
  | cons b pre ih =>
    rw [List.cons_append] at h
    generalize hrest : pre ++ c :: post = rest at h
    cases h with
    | last _ => simp at hrest
    | next _ hl => exact ih (hrest ▸ hl)

/-- Every cell of a chain but its first is linked from another. -/
theorem pred_mem (h : Chain t a l) (hc : c ∈ l) : c = a ∨ ∃ x ∈ l, t x = .next c := by
  induction h with
  | last _ => exact .inl (List.mem_singleton.mp hc)
  | @next a b l ha hl ih =>
    rcases List.mem_cons.mp hc with rfl | hc
    · exact .inl rfl
    · rcases ih hc with rfl | ⟨x, hx, hxc⟩
      · exact .inr ⟨a, List.mem_cons_self, ha⟩
      · exact .inr ⟨x, List.mem_cons_of_mem _ hx, hxc⟩

theorem eq_head_of_isHead (h : Chain t a l) (hc : c ∈ l) (hhead : IsHead t c) : c = a := by
  rcases h.pred_mem hc with rfl | ⟨x, -, hx⟩
  · rfl
  · exact absurd hx (hhead x)

end Chain

/-! ### Heads -/

namespace SoundTable

/-- A table without links between cells. -/
theorem of_no_next (h : ∀ a b, t a ≠ .next b) : SoundTable t := by
  refine ⟨fun a b hab => absurd hab (h a b), fun a b c hac => absurd hac (h a c), fun a ha => ?_⟩
  cases hlink : t a with
  | free => exact absurd hlink ha
  | last => exact ⟨[a], .last hlink⟩
  | next b => exact absurd hlink (h a b)

/-- No link leads to a free cell. -/
theorem isHead_of_free (ht : SoundTable t) (hn : t n = .free) : IsHead t n :=
  fun b hb => ht.used b n hb hn

/-- Two chains that meet have a common rest: one starts in the other. -/
theorem mem_or_mem (ht : SoundTable t) (h : Chain t a l) (h' : Chain t b l') (hx : c ∈ l)
    (hx' : c ∈ l') : a ∈ l' ∨ b ∈ l := by
  induction h with
  | last ha =>
    obtain rfl := List.mem_singleton.mp hx
    exact .inl hx'
  | @next a d l ha hl ih =>
    rcases List.mem_cons.mp hx with rfl | hx
    · exact .inl hx'
    · rcases ih hx with hd | hb
      · -- the link that leads to `d` in the other chain is the one from `a`
        rcases h'.pred_mem hd with rfl | ⟨x, hxl', hxd⟩
        · exact .inr (List.mem_cons_of_mem _ hl.head_mem)
        · obtain rfl := ht.inj _ _ _ ha hxd
          exact .inl hxl'
      · exact .inr (List.mem_cons_of_mem _ hb)

/-- Chains of different heads have no cell in common. -/
theorem heads_disjoint (ht : SoundTable t) (ha : IsHead t a) (hb : IsHead t b) (hab : a ≠ b)
    (h : Chain t a l) (h' : Chain t b l') : ∀ x ∈ l, x ∉ l' := by
  intro x hx hx'
  rcases ht.mem_or_mem h h' hx hx' with hmem | hmem
  · exact hab (h'.eq_head_of_isHead hmem ha)
  · exact hab (h.eq_head_of_isHead hmem hb).symm

end SoundTable

/-! ### The operations -/

theorem Link.ne_of_last_of_free (hc : t c = .last) (hn : t n = .free) : n ≠ c := by
  rintro rfl
  rw [hn] at hc
  cases hc

section Operations

variable [DecidableEq α]

namespace Link

/-- A free cell becomes a chain of its own. -/
def claim (t : α → Link α) (n : α) : α → Link α := Function.update t n .last

/-- A free cell is appended to the chain that ends in `c`. -/
def extend (t : α → Link α) (c n : α) : α → Link α := Function.update (claim t n) c (.next n)

theorem claim_self : claim t n n = .last := Function.update_self _ _ _

theorem claim_of_ne (h : a ≠ n) : claim t n a = t a := Function.update_of_ne h _ _

theorem extend_end : extend t c n c = .next n := Function.update_self _ _ _

theorem extend_new (h : n ≠ c) : extend t c n n = .last :=
  (Function.update_of_ne h _ _).trans claim_self

theorem extend_of_ne (hc : a ≠ c) (hn : a ≠ n) : extend t c n a = t a :=
  (Function.update_of_ne hc _ _).trans (claim_of_ne hn)

/-- The links of the claimed table. -/
theorem claim_eq_next (h : claim t n a = .next b) : t a = .next b := by
  by_cases ha : a = n
  · rw [ha, claim_self] at h
    cases h
  · rwa [claim_of_ne ha] at h

/-- The links of the extended table. -/
theorem extend_eq_next (hc : t c = .last) (hn : t n = .free) (h : extend t c n a = .next b) :
    a = c ∧ b = n ∨ t a = .next b := by
  by_cases hac : a = c
  · rw [hac, extend_end] at h
    exact .inl ⟨hac, (Link.next.inj h).symm⟩
  by_cases han : a = n
  · rw [han, extend_new (ne_of_last_of_free hc hn)] at h
    cases h
  · rw [extend_of_ne hac han] at h
    exact .inr h

end Link

theorem Chain.claim (h : Chain t a l) (hn : t n = .free) : Chain (Link.claim t n) a l :=
  h.congr fun x hx => Link.claim_of_ne fun he => h.used x hx (he ▸ hn)

theorem Chain.extend_notMem (h : Chain t a l) (hc : c ∉ l) (hn : t n = .free) :
    Chain (Link.extend t c n) a l :=
  h.congr fun x hx => Link.extend_of_ne (fun he => hc (he ▸ hx)) fun he => h.used x hx (he ▸ hn)

/-- The chain that ends in `c` gets the new cell. -/
theorem Chain.extend_mem (h : Chain t a l) (hc : c ∈ l) (hlast : t c = .last) (hn : t n = .free) :
    Chain (Link.extend t c n) a (l ++ [n]) := by
  induction h with
  | last ha =>
    obtain rfl := List.mem_singleton.mp hc
    exact .next Link.extend_end (.last (Link.extend_new (Link.ne_of_last_of_free hlast hn)))
  | @next a b l ha hl ih =>
    have hac : a ≠ c := fun he => by simp [← he, ha] at hlast
    have han : a ≠ n := fun he => by simp [← he, ha] at hn
    rcases List.mem_cons.mp hc with rfl | hc
    · exact absurd rfl hac
    · exact .next ((Link.extend_of_ne hac han).trans ha) (ih hc)

namespace SoundTable

theorem claim (ht : SoundTable t) (hn : t n = .free) : SoundTable (Link.claim t n) := by
  refine ⟨fun a b h => ?_, fun a b c h h' =>
    ht.inj a b c (Link.claim_eq_next h) (Link.claim_eq_next h'), fun a h => ?_⟩
  · by_cases hb : b = n
    · simp [hb, Link.claim_self]
    · rw [Link.claim_of_ne hb]
      exact ht.used a b (Link.claim_eq_next h)
  · by_cases ha : a = n
    · exact ⟨[a], .last (ha ▸ Link.claim_self)⟩
    · rw [Link.claim_of_ne ha] at h
      obtain ⟨l, hl⟩ := ht.ends a h
      exact ⟨l, hl.claim hn⟩

theorem extend (ht : SoundTable t) (hc : t c = .last) (hn : t n = .free) :
    SoundTable (Link.extend t c n) := by
  have hnc := Link.ne_of_last_of_free hc hn
  refine ⟨fun a b h => ?_, fun a b d h h' => ?_, fun a h => ?_⟩
  · by_cases hbc : b = c
    · simp [hbc, Link.extend_end]
    by_cases hbn : b = n
    · simp [hbn, Link.extend_new hnc]
    · rw [Link.extend_of_ne hbc hbn]
      rcases Link.extend_eq_next hc hn h with ⟨-, rfl⟩ | h
      · exact absurd rfl hbn
      · exact ht.used a b h
  · -- the one link that is new leads to a cell to which none led
    rcases Link.extend_eq_next hc hn h with ⟨hac, hdn⟩ | hold
    · rcases Link.extend_eq_next hc hn h' with ⟨hbc, -⟩ | hold'
      · exact hac.trans hbc.symm
      · exact absurd (hdn ▸ hold') (ht.isHead_of_free hn b)
    · rcases Link.extend_eq_next hc hn h' with ⟨-, hdn⟩ | hold'
      · exact absurd (hdn ▸ hold) (ht.isHead_of_free hn a)
      · exact ht.inj a b d hold hold'
  · by_cases han : a = n
    · rw [han]
      exact ⟨[n], .last (Link.extend_new hnc)⟩
    have hused : t a ≠ .free := by
      by_cases hac : a = c
      · simp [hac, hc]
      · rwa [Link.extend_of_ne hac han] at h
    obtain ⟨l, hl⟩ := ht.ends a hused
    by_cases hmem : c ∈ l
    · exact ⟨l ++ [n], hl.extend_mem hmem hc hn⟩
    · exact ⟨l, hl.extend_notMem hmem hn⟩

end SoundTable

/-- Heads stay heads when a cell is claimed. -/
theorem IsHead.claim (h : IsHead t a) : IsHead (Link.claim t n) a :=
  fun b hb => h b (Link.claim_eq_next hb)

/-- Heads other than the new cell stay heads when a chain is extended. -/
theorem IsHead.extend (h : IsHead t a) (ha : a ≠ n) (hc : t c = .last) (hn : t n = .free) :
    IsHead (Link.extend t c n) a := by
  intro b hb
  rcases Link.extend_eq_next hc hn hb with ⟨-, hab⟩ | hb
  · exact ha hab
  · exact h b hb

end Operations
