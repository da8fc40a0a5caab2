import Neptune.Lib.ByteMem

/-!
# Memory that is read in part

A reader gets its memory as a `Peek`, which answers at some addresses and not at others, and it comes to
no result if it reads an address without an answer.  So a reader that comes to a result with `m.only ok`
reads no address other than those of `ok`.

## Main definitions

* `Peek` — memory that answers at some addresses.
* `Peek.word` — little-endian words.
* `ByteMem.only m ok` — the memory `m` at the addresses of `ok`.

## Main results

* `ByteMem.word_only`, `ByteMem.of_word_only` — when a word can be read.
-/

/-- Memory that answers at some addresses. -/
abbrev Peek := ℕ → Option UInt8

namespace Peek

/-- A little-endian word of `n` bytes. -/
def word (p : Peek) : ℕ → ℕ → Option ℕ
  | 0, _ => some 0
  | n + 1, a => do
    let low ← p a
    let high ← p.word n (a + 1)
    return low.toNat + 256 * high

end Peek

namespace ByteMem

/-- The memory at the addresses of `ok`, and no others. -/
def only (m : ByteMem) (ok : ℕ → Prop) [DecidablePred ok] : Peek := fun a =>
  if ok a then some (m a) else none

variable {m : ByteMem} {ok : ℕ → Prop} [DecidablePred ok] {n a i : ℕ}

theorem only_apply (h : ok a) : m.only ok a = some (m a) := if_pos h

theorem only_eq_none (h : ¬ok a) : m.only ok a = none := if_neg h

/-- A word all of whose bytes can be read. -/
theorem word_only (h : ∀ i < n, ok (a + i)) : (m.only ok).word n a = some (m.load n a) := by
  induction n generalizing a with
  | zero => rw [Peek.word, load]
  | succ n ih =>
    have hfirst : ok a := h 0 n.succ_pos
    have hrest : ∀ i < n, ok (a + 1 + i) := by
      intro i hi
      rw [Nat.add_assoc, Nat.add_comm 1]
      exact h (i + 1) (Nat.succ_lt_succ hi)
    rw [Peek.word, only_apply hfirst, ih hrest, load]
    rfl

/-- A word with a byte that cannot be read. -/
theorem word_only_eq_none (hi : i < n) (h : ¬ok (a + i)) : (m.only ok).word n a = none := by
  induction n generalizing a i with
  | zero => cases hi
  | succ n ih =>
    rw [Peek.word]
    cases i with
    | zero =>
      have hfirst : ¬ok a := h
      rw [only_eq_none hfirst, Option.bind_eq_bind, Option.bind_none]
    | succ i =>
      rw [ih (a := a + 1) (Nat.lt_of_succ_lt_succ hi) (by rwa [Nat.add_assoc, Nat.add_comm 1])]
      cases m.only ok a <;> rfl

/-- What is known of a word that has been read. -/
theorem of_word_only {v : ℕ} (h : (m.only ok).word n a = some v) :
    v = m.load n a ∧ ∀ i < n, ok (a + i) := by
  have hall : ∀ i < n, ok (a + i) := by
    intro i hi
    by_contra hnot
    rw [word_only_eq_none hi hnot] at h
    cases h
  rw [word_only hall] at h
  exact ⟨(Option.some.inj h).symm, hall⟩

end ByteMem
