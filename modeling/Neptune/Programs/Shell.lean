import Neptune.Lib.CString
import Neptune.Lib.Path
import Neptune.Vfs.Memfs
import Mathlib.Data.List.DropRight
import Mathlib.Data.List.Forall2
import Mathlib.Data.List.GetD

/-!
# The shell

The shell reads a line into a buffer of 128 bytes, cuts it into words in place and keeps pointers to the
first four of them in `args`.  A pipe or a redirection is done with parts of this array, and the other
commands with a copy that has one entry more.  The path of a command is built in a buffer of 128 bytes.

The model logs what can go wrong: which entries of `args` are read, what is written to the buffers for
paths and which vectors are given to the kernel.

## Main definitions

* `tokenize`, `resolveCmd`, `shellLine` — the shell.
* `ShellEvent.Ok` — an event that stays in its arrays.
* `HasRoom` — the lines for which there is room.

## Main results

* `tokenize_spec` — the words of a line.
* `shell_line_iff` — **when the shell stays in its arrays**.
-/

namespace Neptune

open ByteMem List Nat Option

/-- `BUF_LEN`. -/
def shellBufLen : ℕ := 128

/-- `MAX_TOKENS`. -/
def maxTokens : ℕ := 4

/-! ### Lines -/

/-- The loop of `strip_newline` on a string of `len` bytes. -/
def stripNewline (m : ByteMem) : ℕ → ByteMem
  | 0 => m
  | len + 1 =>
    if m len = 0x0A ∨ m len = 0x0D then stripNewline (m.store 1 len 0) len else m

/-- `tokenize`, with room for `k` more words. -/
def tokenize (m : ByteMem) : ℕ → ℕ → List ℕ → ByteMem × List ℕ
  | 0, _, out => (m, out)
  | k + 1, p, out =>
    if m p = 0 then (m, out)
    else
      let p := scan (· = 0x20) m shellBufLen p
      if m p = 0 then (m, out)
      else
        let q := scan (fun c => c ≠ 0 ∧ c ≠ 0x20) m shellBufLen p
        if m q ≠ 0 then tokenize (m.store 1 q 0) k (q + 1) (out ++ [p]) else tokenize m k q (out ++ [p])

/-- The string that an entry of `args` points to. -/
def argText (m : ByteMem) : Option ℕ → List UInt8
  | some p => m.cstr shellBufLen p
  | none => []

/-- What `resolve_cmd` writes to its buffer. -/
def resolveCmd (cmd : List UInt8) : List UInt8 :=
  (if cmd.head? = some 0x2F then cmd else ascii "/bin/" ++ cmd) ++ [0]

/-! ### Commands -/

/-- What the shell does with its arrays. -/
inductive ShellEvent where
  /-- An entry of `args` is read. -/
  | readArg (i : ℕ)
  /-- A path is written. -/
  | path (bytes : List UInt8)
  /-- A vector is given to the kernel: its entries up to the end of the array. -/
  | vector (entries : List (Option ℕ))
  deriving DecidableEq, Repr

/-- What the system calls return, and what stands behind the array `args` and in an array that has not
been written. -/
structure ShellEnv where
  pipeOk : Bool
  spawnOk : Bool
  openOk : Bool
  beyond : ℕ → Option ℕ

/-- The commands that the shell does itself, with the entries of `args` that they read. -/
def builtins : List (List UInt8 × List ℕ) :=
  [(ascii "help", []), (ascii "exit", []), (ascii "hello", []), (ascii "exec", []), (ascii "cd", [1]),
    (ascii "pwd", []), (ascii "mkdir", [1]), (ascii "cat", [1]), (ascii "write", [1, 2]),
    (ascii "append", [1, 2])]

/-- `args[i]`. -/
def argAt (env : ShellEnv) (args : List (Option ℕ)) (i : ℕ) : Option ℕ :=
  if i < maxTokens then args.getD i none else env.beyond i

/-- The loop that looks for a pipe (`true`) or a redirection, with `n` entries left. -/
def findOperator (env : ShellEnv) (m : ByteMem) (args : List (Option ℕ)) :
    ℕ → ℕ → List ShellEvent × Option (ℕ × Bool)
  | 0, _ => ([], none)
  | n + 1, i =>
    if argText m (argAt env args i) = ascii "|" then ([.readArg i], some (i, true))
    else if argText m (argAt env args i) = ascii ">" then ([.readArg i], some (i, false))
    else
      let (log, found) := findOperator env m args n (i + 1)
      (.readArg i :: log, found)

/-- `cmd_spawn`. -/
def cmdSpawn (env : ShellEnv) (m : ByteMem) (args : List (Option ℕ)) (argc : ℕ) : List ShellEvent :=
  if argc = 0 then []
  else
    let argv := (List.range (maxTokens + 1)).map fun i =>
      if i = argc then none else if i < argc ∧ i < maxTokens then argAt env args i else env.beyond i
    [.readArg 0, .path (resolveCmd (argText m (argAt env args 0)))]
      ++ (List.range (min argc maxTokens)).map .readArg ++ [.vector argv]

/-- `cmd1 | cmd2` with the pipe at `i`. -/
def pipeCommand (env : ShellEnv) (m : ByteMem) (args : List (Option ℕ)) (i : ℕ) : List ShellEvent :=
  let args := args.set i none
  let cmd2 := argAt env args (i + 1)
  .readArg (i + 1) ::
    if cmd2 = none ∨ !env.pipeOk then []
    else
      [.readArg 0, .path (resolveCmd (argText m (argAt env args 0))), .vector args] ++
        if !env.spawnOk then []
        else [.readArg (i + 1), .path (resolveCmd (argText m cmd2)), .vector (args.drop (i + 1))]

/-- `cmd > file` with the operator at `i`. -/
def redirectCommand (env : ShellEnv) (m : ByteMem) (args : List (Option ℕ)) (i : ℕ) : List ShellEvent :=
  let args := args.set i none
  let file := argAt env args (i + 1)
  .readArg (i + 1) ::
    if file = none ∨ !env.openOk then []
    else [.readArg 0, .path (resolveCmd (argText m (argAt env args 0))), .vector args]

/-- What the shell does with the words of a line. -/
def shellCommand (env : ShellEnv) (m : ByteMem) (args : List (Option ℕ)) (argc : ℕ) : List ShellEvent :=
  if argc = 0 then []
  else
    .readArg 0 ::
      match builtins.find? fun b => b.1 = argText m (argAt env args 0) with
      | some b => b.2.map .readArg
      | none =>
        let (log, found) := findOperator env m args argc 0
        log ++
          match found with
          | some (i, true) => if 0 < i then pipeCommand env m args i else cmdSpawn env m args argc
          | some (i, false) => if 0 < i then redirectCommand env m args i else cmdSpawn env m args argc
          | none => cmdSpawn env m args argc

/-- One pass of the loop of the shell: `read` has put the line into the buffer. -/
def shellLine (env : ShellEnv) (m : ByteMem) (line : List UInt8) : List ShellEvent × List (Option ℕ) :=
  if line = [] then ([], [])
  else
    let m := (m.blit 0 line).store 1 line.length 0
    let m := stripNewline m (m.cstr shellBufLen 0).length
    if m 0 = 0 then ([], [])
    else
      let (m, ptrs) := tokenize m maxTokens 0 []
      let args := ptrs.map some ++ List.replicate (maxTokens - ptrs.length) none
      (shellCommand env m args ptrs.length, args)

/-! ### The words of a line -/

/-- The end of a line. -/
def isNewline (c : UInt8) : Bool := c = 0x0A ∨ c = 0x0D

/-- The text of a line: up to the first 0, and without the newlines at its end. -/
def lineText (line : List UInt8) : List UInt8 := (line.takeWhile (· ≠ 0)).rdropWhile isNewline

/-- The words of a line that the shell sees. -/
def lineWords (line : List UInt8) : List (List UInt8) := (components 0x20 (lineText line)).take maxTokens

variable {m : ByteMem} {p n k : ℕ} {w rest line : List UInt8} {out : List ℕ}

theorem stripNewline_spec (h : StrAt m 0 w) :
    StrAt (stripNewline m w.length) 0 (w.rdropWhile isNewline) := by
  induction w using List.reverseRecOn generalizing m with
  | nil => exact h
  | append_singleton w c ih =>
    have hlast : m w.length = c := by
      have hbyte := h.byte_eq (k := w.length) (by simp)
      simpa using hbyte
    have hcut : StrAt (m.store 1 w.length 0) 0 w := by
      have hcut := h.cut (k := w.length) (by simp)
      simpa using hcut
    rw [length_append, length_singleton, stripNewline, hlast, rdropWhile_concat]
    by_cases hc : c = 0x0A ∨ c = 0x0D
    · rw [if_pos hc, if_pos (by simpa [isNewline] using hc)]
      exact ih hcut
    · rw [if_neg hc, if_neg (by simpa [isNewline] using hc)]
      exact h

/-- The first word of a text that does not begin with a space. -/
theorem components_word {r : List UInt8} (hr : r.head? ≠ some 0x20) (hne : r ≠ []) :
    components 0x20 r = r.takeWhile (· ≠ 0x20) :: components 0x20 ((r.dropWhile (· ≠ 0x20)).drop 1) := by
  have htake : r.takeWhile (· ≠ 0x20) ≠ [] := by
    cases r with
    | nil => exact absurd rfl hne
    | cons c r =>
      rw [takeWhile_cons, if_pos]
      · nofun
      · simpa using hr
  rw [components_eq, if_neg htake, components_dropWhile, singleton_append]
  congr 1
  cases hrest : r.dropWhile (· ≠ 0x20) with
  | nil => rfl
  | cons c rest =>
    have hc : c = 0x20 := by
      have hhead := head_dropWhile_not (p := fun x : UInt8 => decide (x ≠ 0x20)) (l := r)
        (by rw [hrest]; nofun)
      simp only [hrest, head_cons] at hhead
      simpa using hhead
    rw [hc, components_cons_sep]
    rfl

theorem tokenize_nul (h : m p = 0) : tokenize m k p out = (m, out) := by
  cases k with
  | zero => rfl
  | succ k => rw [tokenize, if_pos h]

/-- The pointers of `tokenize` are to the words of the text, the first `k` of them. -/
theorem tokenize_spec (k : ℕ) (out : List ℕ) (h : StrAt m p rest) (hp : p + rest.length < shellBufLen) :
    ∃ ptrs,
    (tokenize m k p out).2 = out ++ ptrs ∧
      List.Forall₂ (StrAt (tokenize m k p out).1) ptrs ((components 0x20 rest).take k) ∧
      ∀ x < p, (tokenize m k p out).1 x = m x := by
  induction k generalizing m p rest out with
  | zero => exact ⟨[], by simp [tokenize], by simp, fun _ _ => rfl⟩
  | succ k ih =>
    rw [tokenize]
    split
    · next hend =>
      obtain rfl := h.byte_eq_zero_iff.mp hend
      exact ⟨[], by simp, by simp, fun _ _ => rfl⟩
    -- the spaces before the word
    have hp₁ := h.scan_eq (· = 0x20) rfl (by omega : rest.length < shellBufLen)
    have hr := h.scan_rest (· = 0x20) rfl (by omega : rest.length < shellBufLen)
    have hhead : (rest.dropWhile (· = 0x20)).head? ≠ some 0x20 := by
      intro hhead
      have hnot := head?_dropWhile_not (fun c : UInt8 => decide (c = 0x20)) rest
      rw [hhead] at hnot
      simp at hnot
    have hlen : (rest.takeWhile (· = 0x20)).length + (rest.dropWhile (· = 0x20)).length = rest.length := by
      rw [← length_append, takeWhile_append_dropWhile]
    rw [← components_dropWhile]
    generalize rest.dropWhile (· = 0x20) = r at *
    dsimp only
    generalize scan (· = 0x20) m shellBufLen p = p₁ at *
    split
    · next hend =>
      obtain rfl := hr.byte_eq_zero_iff.mp hend
      exact ⟨[], by simp, by simp, fun _ _ => rfl⟩
    next hword =>
    have hne : r ≠ [] := fun hnil => hword (hr.byte_eq_zero_iff.mpr hnil)
    -- the word
    have hq := hr.scan_eq (fun c => c ≠ 0 ∧ c ≠ 0x20) rfl (by omega : r.length < shellBufLen)
    have htail := hr.scan_rest (fun c => c ≠ 0 ∧ c ≠ 0x20) rfl (by omega : r.length < shellBufLen)
    obtain ⟨htake, hdrop⟩ := StrAt.span_ne_zero hr.no_nul 0x20
    rw [htake] at hq
    rw [hdrop] at htail
    generalize scan (fun c => c ≠ 0 ∧ c ≠ 0x20) m shellBufLen p₁ = q at *
    have hsplit := takeWhile_append_dropWhile (p := fun c : UInt8 => decide (c ≠ 0x20)) (l := r)
    rw [components_word hhead hne, take_succ_cons]
    have hlen' : (r.takeWhile (· ≠ 0x20)).length + (r.dropWhile (· ≠ 0x20)).length = r.length := by
      rw [← length_append, hsplit]
    have htext : r.takeWhile (· ≠ 0x20) = r.take (r.takeWhile (· ≠ 0x20)).length :=
      take_left.symm.trans (congrArg (List.take _) hsplit)
    have hstr := hr.cut (k := (r.takeWhile (· ≠ 0x20)).length) (by omega)
    rw [← htext, ← hq] at hstr
    generalize r.takeWhile (· ≠ 0x20) = word at *
    generalize r.dropWhile (· ≠ 0x20) = tail at *
    split
    · next hspace =>
      -- a space is overwritten
      have hpos : 0 < tail.length :=
        length_pos_of_ne_nil fun hnil => hspace (htail.byte_eq_zero_iff.mpr hnil)
      have hnext : StrAt (m.store 1 q 0) (q + 1) (tail.drop 1) :=
        (htail.drop (k := 1) hpos).store_of_gt (by omega)
      have hroom : q + 1 + (tail.drop 1).length < shellBufLen := by
        rw [length_drop]
        omega
      obtain ⟨ptrs, hptrs, hwords, hbefore⟩ := ih (out ++ [p₁]) hnext hroom
      refine ⟨p₁ :: ptrs, by rw [hptrs, append_assoc]; rfl, .cons ?_ hwords, fun x hx => ?_⟩
      · exact hstr.congr fun x h1 h2 => hbefore x (by omega)
      · rw [hbefore x (by omega), store_apply_of_not_mem m (by omega)]
    · next hend =>
      obtain rfl := htail.byte_eq_zero_iff.mp (not_not.mp hend)
      obtain rfl : word = r := (append_nil word).symm.trans hsplit
      rw [tokenize_nul (not_not.mp hend)]
      exact ⟨[p₁], rfl, by simpa using hr, fun _ _ => rfl⟩

/-! ### Commands that stay in their arrays -/

/-- An event that stays in the arrays: a vector has entries of `args` and then a 0. -/
def ShellEvent.Ok (args : List (Option ℕ)) : ShellEvent → Prop
  | .readArg i => i < maxTokens
  | .path bytes => bytes.length ≤ shellBufLen
  | .vector entries => ∃ (ptrs : List ℕ) (rest : List (Option ℕ)),
    entries = ptrs.map some ++ none :: rest ∧ ∀ q ∈ ptrs, some q ∈ args

/-- The path of a command fits its buffer. -/
def PathFits (w : List UInt8) : Prop := w.head? = some 0x2F ∨ w.length ≤ 122

/-- A pipe or a redirection. -/
def isOperator (w : List UInt8) : Bool := w = ascii "|" ∨ w = ascii ">"

/-- There is room for the words of a line: a pipe needs less than four words and a redirection may not be
the last of four, and the paths that are used must fit. -/
def HasRoom (ws : List (List UInt8)) : Prop :=
  ws = [] ∨ ws.getD 0 [] ∈ builtins.map Prod.fst ∨
    match ws.findIdx? isOperator with
    | none | some 0 => PathFits (ws.getD 0 [])
    | some i =>
      if ws.getD i [] = ascii "|" then
        ws.length < maxTokens ∧ (ws.length = i + 1 ∨ PathFits (ws.getD 0 []) ∧ PathFits (ws.getD (i + 1) []))
      else i + 1 < maxTokens ∧ (ws.length = i + 1 ∨ PathFits (ws.getD 0 []))

/-- The array `args` has pointers to the words. -/
structure Parsed (m : ByteMem) (args : List (Option ℕ)) (ptrs : List ℕ) (ws : List (List UInt8)) : Prop where
  args_eq : args = ptrs.map some ++ List.replicate (maxTokens - ptrs.length) none
  words : List.Forall₂ (StrAt m) ptrs ws
  length_le : ptrs.length ≤ maxTokens
  short : ∀ w ∈ ws, w.length < shellBufLen

theorem length_resolveCmd_le_iff (hw : w.length < shellBufLen) :
    (resolveCmd w).length ≤ shellBufLen ↔ PathFits w := by
  have hbin : (ascii "/bin/").length = 5 := by decide
  rw [resolveCmd, PathFits]
  split
  · next hslash =>
    simp only [hslash, true_or, iff_true, length_append, length_singleton]
    omega
  · next hslash =>
    simp only [hslash, false_or, length_append, length_singleton, hbin, shellBufLen]
    omega

theorem exists_map_some {l : List (Option ℕ)} (h : ∀ e ∈ l, e ≠ none) :
    ∃ ptrs : List ℕ, l = ptrs.map some := by
  induction l with
  | nil => exact ⟨[], rfl⟩
  | cons e l ih =>
    obtain ⟨q, rfl⟩ := ne_none_iff_exists'.mp (h e mem_cons_self)
    obtain ⟨ptrs, rfl⟩ := ih fun e he => h e (mem_cons_of_mem _ he)
    exact ⟨q :: ptrs, rfl⟩

/-- A vector with a 0 at `k` and entries of `args` before it. -/
theorem ShellEvent.ok_vector {args entries : List (Option ℕ)} (hnull : entries[k]? = some none)
    (hbefore : ∀ j < k, ∃ q, entries[j]? = some (some q) ∧ some q ∈ args) :
    ShellEvent.Ok args (.vector entries) := by
  have hk : k < entries.length := (List.getElem?_eq_some_iff.mp hnull).1
  have hentry : ∀ e ∈ entries.take k, ∃ q, e = some q ∧ some q ∈ args := by
    intro e he
    obtain ⟨j, hj, rfl⟩ := getElem_of_mem he
    rw [length_take] at hj
    obtain ⟨q, hq, hmem⟩ := hbefore j (by omega)
    refine ⟨q, ?_, hmem⟩
    rw [getElem_take]
    exact (List.getElem?_eq_some_iff.mp hq).2
  obtain ⟨ptrs, hptrs⟩ := exists_map_some fun e he => by
    obtain ⟨q, rfl, -⟩ := hentry e he
    nofun
  refine ⟨ptrs, entries.drop (k + 1), ?_, fun q hq => ?_⟩
  · rw [← hptrs, ← (List.getElem?_eq_some_iff.mp hnull).2, List.getElem_cons_drop, List.take_append_drop]
  · obtain ⟨q', heq, hmem⟩ := hentry (some q) (hptrs ▸ List.mem_map_of_mem hq)
    exact heq ▸ hmem

theorem argAt_set (env : ShellEnv) (args : List (Option ℕ)) {i j : ℕ} (hij : i ≠ j) :
    argAt env (args.set i none) j = argAt env args j := by
  rw [argAt, argAt, getD_eq_getElem?_getD, getElem?_set_ne hij, ← getD_eq_getElem?_getD]

namespace Parsed

variable {args : List (Option ℕ)} {ptrs : List ℕ} {ws : List (List UInt8)} {env : ShellEnv} {i : ℕ}

theorem length_eq (h : Parsed m args ptrs ws) : ptrs.length = ws.length := h.words.length_eq

theorem length_args (h : Parsed m args ptrs ws) : args.length = maxTokens := by
  have hle := h.length_le
  rw [h.args_eq, length_append, length_map, length_replicate]
  omega

/-- An entry with a word. -/
theorem getElem?_of_lt (h : Parsed m args ptrs ws) (hi : i < ws.length) :
    ∃ q, args[i]? = some (some q) ∧ some q ∈ args ∧ argText m (some q) = ws.getD i [] := by
  have hi' : i < ptrs.length := h.length_eq ▸ hi
  have hstr : StrAt m (ptrs[i]) (ws[i]) := (forall₂_iff_get.mp h.words).2 i hi' hi
  have hentry : args[i]? = some (some ptrs[i]) := by
    rw [h.args_eq]
    simp [getElem?_append, hi']
  refine ⟨ptrs[i], hentry, mem_of_getElem? hentry, ?_⟩
  rw [argText, hstr.cstr_eq (h.short _ (getElem_mem hi)), getD_eq_getElem _ _ hi]

/-- An entry without a word. -/
theorem getElem?_of_ge (h : Parsed m args ptrs ws) (hi : ws.length ≤ i) (hi' : i < maxTokens) :
    args[i]? = some none := by
  have hlen := h.length_eq
  rw [h.args_eq, getElem?_append_right (by rw [length_map]; omega), length_map,
    getElem?_replicate, if_pos (by omega)]

theorem argAt_of_lt (h : Parsed m args ptrs ws) (env : ShellEnv) (hi : i < ws.length) :
    ∃ q, argAt env args i = some q ∧ argText m (some q) = ws.getD i [] := by
  have hle := h.length_le
  have hlen := h.length_eq
  obtain ⟨q, hq, -, htext⟩ := h.getElem?_of_lt hi
  refine ⟨q, ?_, htext⟩
  rw [argAt, if_pos (by omega), getD_eq_getElem?_getD, hq, getD_some]

/-- The loop that looks for an operator reads entries with words only, and finds the first operator. -/
theorem findOperator_spec (h : Parsed m args ptrs ws) (env : ShellEnv) (hi : i + n = ws.length) :
    (∀ ev ∈ (findOperator env m args n i).1, ev.Ok args) ∧
      (findOperator env m args n i).2 = ((ws.drop i).findIdx? isOperator).map fun j =>
        (i + j, decide (ws.getD (i + j) [] = ascii "|")) := by
  induction n generalizing i with
  | zero =>
    have hdrop : ws.drop i = [] := drop_eq_nil_of_le (by omega)
    simp [findOperator, hdrop]
  | succ n ih =>
    have hlt : i < ws.length := by omega
    have hle := h.length_le
    have hlen := h.length_eq
    obtain ⟨q, harg, htext⟩ := h.argAt_of_lt env hlt
    have hdrop : ws.drop i = ws.getD i [] :: ws.drop (i + 1) := by
      rw [drop_eq_getElem_cons hlt]
      simp [hlt]
    have hread : ShellEvent.Ok args (.readArg i) := by
      show i < maxTokens
      omega
    obtain ⟨hlog, hfound⟩ := ih (by omega : i + 1 + n = ws.length)
    rw [findOperator, harg, htext, hdrop, findIdx?_cons]
    obtain ⟨w, hw⟩ : ∃ w, ws.getD i [] = w := ⟨_, rfl⟩
    rw [hw]
    split
    · next hpipe =>
      have hop : isOperator w = true := by rw [hpipe]; decide
      refine ⟨forall_mem_singleton.mpr hread, ?_⟩
      rw [if_pos hop, map_some, add_zero, hw, hpipe, decide_eq_true rfl]
    next hpipe =>
    split
    · next hredirect =>
      have hop : isOperator w = true := by rw [hredirect]; decide
      refine ⟨forall_mem_singleton.mpr hread, ?_⟩
      rw [if_pos hop, map_some, add_zero, hw, decide_eq_false hpipe]
    · next hredirect =>
      have hop : ¬isOperator w = true := by simp [isOperator, hpipe, hredirect]
      dsimp only
      rw [hfound, if_neg hop, Option.map_map]
      refine ⟨List.forall_mem_cons.mpr ⟨hread, hlog⟩, ?_⟩
      congr 1
      funext j
      simp only [Function.comp_apply, add_assoc, add_comm 1 j]

/-- The first word of a command is its path. -/
theorem path_ok_iff (h : Parsed m args ptrs ws) (env : ShellEnv) (hi : i < ws.length) :
    ShellEvent.Ok args (.path (resolveCmd (argText m (argAt env args i)))) ↔ PathFits (ws.getD i []) := by
  obtain ⟨q, harg, htext⟩ := h.argAt_of_lt env hi
  have hshort : (ws.getD i []).length < shellBufLen := by
    rw [getD_eq_getElem _ _ hi]
    exact h.short _ (getElem_mem hi)
  rw [harg, htext]
  exact length_resolveCmd_le_iff hshort

/-- `cmd_spawn` has room for the words; the path may be too long. -/
theorem cmdSpawn_ok_iff (h : Parsed m args ptrs ws) (env : ShellEnv) (hne : 0 < ws.length) :
    (∀ ev ∈ cmdSpawn env m args ptrs.length, ev.Ok args) ↔ PathFits (ws.getD 0 []) := by
  have hle := h.length_le
  have hlen := h.length_eq
  have hpath := h.path_ok_iff env hne
  rw [cmdSpawn, if_neg (by omega)]
  dsimp only
  constructor
  · intro hall
    exact hpath.mp (hall _ (by simp))
  · intro hfits ev hev
    rcases mem_append.mp hev with hev | hev
    · rcases mem_append.mp hev with hev | hev
      · rcases mem_pair.mp hev with rfl | rfl
        · exact (by decide : 0 < maxTokens)
        · exact hpath.mpr hfits
      · obtain ⟨j, hj, rfl⟩ := mem_map.mp hev
        have hj := mem_range.mp hj
        exact lt_of_lt_of_le hj (min_le_right _ _)
    · rw [mem_singleton.mp hev]
      refine ShellEvent.ok_vector (k := ptrs.length) ?_ fun j hj => ?_
      · simp [getElem?_range (by omega : ptrs.length < maxTokens + 1)]
      · obtain ⟨q, hq, hmem, -⟩ := h.getElem?_of_lt (hlen ▸ hj)
        refine ⟨q, ?_, hmem⟩
        simp [getElem?_range (by omega : j < maxTokens + 1), hj.ne, hj, argAt, hq,
          (by omega : j < maxTokens)]

/-- The vector of the command before an operator. -/
theorem vector_set_ok (h : Parsed m args ptrs ws) (hi : i < ws.length) :
    ShellEvent.Ok args (.vector (args.set i none)) := by
  have hle := h.length_le
  have hlen := h.length_eq
  refine ShellEvent.ok_vector (k := i) ?_ fun j hj => ?_
  · rw [getElem?_set_self (by rw [h.length_args]; omega)]
  · obtain ⟨q, hq, hmem, -⟩ := h.getElem?_of_lt (by omega : j < ws.length)
    exact ⟨q, by rw [getElem?_set_ne (by omega), hq], hmem⟩

/-- The vector of the command behind a pipe is without a 0 if there are four words. -/
theorem vector_drop_ok_iff (h : Parsed m args ptrs ws) (hi : i + 1 < ws.length) :
    ShellEvent.Ok args (.vector ((args.set i none).drop (i + 1))) ↔ ws.length < maxTokens := by
  have hle := h.length_le
  have hlen := h.length_eq
  have hentry (j : ℕ) : ((args.set i none).drop (i + 1))[j]? = args[i + 1 + j]? := by
    rw [getElem?_drop, getElem?_set_ne (by omega)]
  constructor
  · rintro ⟨qs, rest, heq, -⟩
    by_contra hfull
    have hnull : ((args.set i none).drop (i + 1))[qs.length]? = some none := by simp [heq]
    rw [hentry] at hnull
    have hlt : i + 1 + qs.length < ws.length := by
      have := (List.getElem?_eq_some_iff.mp hnull).1
      rw [h.length_args] at this
      omega
    obtain ⟨q, hq, -⟩ := h.getElem?_of_lt hlt
    cases hnull.symm.trans hq
  · intro hroom
    refine ShellEvent.ok_vector (k := ws.length - (i + 1)) ?_ fun j hj => ?_
    · rw [hentry]
      exact h.getElem?_of_ge (by omega) (by omega)
    · obtain ⟨q, hq, hmem, -⟩ := h.getElem?_of_lt (by omega : i + 1 + j < ws.length)
      exact ⟨q, by rw [hentry, hq], hmem⟩

theorem argAt_of_ge (h : Parsed m args ptrs ws) (env : ShellEnv) (hi : ws.length ≤ i)
    (hi' : i < maxTokens) : argAt env args i = none := by
  rw [argAt, if_pos hi', getD_eq_getElem?_getD, h.getElem?_of_ge hi hi', getD_some]

/-- A pipe needs a free entry behind the words. -/
theorem pipeCommand_ok_iff (h : Parsed m args ptrs ws) (hpos : 0 < i) (hi : i < ws.length) :
    (∀ env, ∀ ev ∈ pipeCommand env m args i, ev.Ok args) ↔
      ws.length < maxTokens ∧ (ws.length = i + 1 ∨ PathFits (ws.getD 0 []) ∧ PathFits (ws.getD (i + 1) [])) := by
  have hle := h.length_le
  have hlen := h.length_eq
  have hzero (env : ShellEnv) := argAt_set env args hpos.ne'
  have hnext (env : ShellEnv) := argAt_set env args (by omega : i ≠ i + 1)
  constructor
  · intro hall
    -- the system calls succeed
    let env : ShellEnv := ⟨true, true, true, fun _ => none⟩
    have hlog := hall env
    have hread : i + 1 < maxTokens := hlog (.readArg (i + 1)) mem_cons_self
    rcases Nat.eq_or_lt_of_le hi with hlast | hmore
    · exact ⟨by omega, .inl hlast.symm⟩
    obtain ⟨q, hq, -⟩ := h.argAt_of_lt env hmore
    have hsome : ¬(argAt env args (i + 1) = none ∨ !env.pipeOk) := by simp [hq, env]
    simp only [pipeCommand, hzero, hnext, if_neg hsome, if_neg (by decide : ¬(!env.spawnOk) = true)] at hlog
    have hvector := hlog (.vector ((args.set i none).drop (i + 1))) (by simp)
    have hpath₁ := hlog (.path (resolveCmd (argText m (argAt env args 0)))) (by simp)
    have hpath₂ := hlog (.path (resolveCmd (argText m (argAt env args (i + 1))))) (by simp)
    exact ⟨(h.vector_drop_ok_iff hmore).mp hvector,
      .inr ⟨(h.path_ok_iff env (by omega)).mp hpath₁, (h.path_ok_iff env hmore).mp hpath₂⟩⟩
  · rintro ⟨hroom, hfits⟩ env
    simp only [pipeCommand, hzero, hnext]
    refine forall_mem_cons.mpr ⟨(by omega : i + 1 < maxTokens), ?_⟩
    split
    · nofun
    next hgoes =>
    have hmore : i + 1 < ws.length := by
      by_contra hlast
      exact hgoes (.inl (h.argAt_of_ge env (by omega) (by omega)))
    obtain ⟨hfits₁, hfits₂⟩ := hfits.resolve_left (by omega)
    refine forall_mem_append.mpr ⟨?_, ?_⟩
    · simp only [forall_mem_cons, not_mem_nil, false_imp_iff, implies_true, and_true]
      exact ⟨(by decide : 0 < maxTokens), (h.path_ok_iff env (by omega)).mpr hfits₁, h.vector_set_ok hi⟩
    · split
      · nofun
      · simp only [forall_mem_cons, not_mem_nil, false_imp_iff, implies_true, and_true]
        exact ⟨(by omega : i + 1 < maxTokens), (h.path_ok_iff env hmore).mpr hfits₂,
          (h.vector_drop_ok_iff hmore).mpr hroom⟩

/-- A redirection reads the entry behind it. -/
theorem redirectCommand_ok_iff (h : Parsed m args ptrs ws) (hpos : 0 < i) (hi : i < ws.length) :
    (∀ env, ∀ ev ∈ redirectCommand env m args i, ev.Ok args) ↔
      i + 1 < maxTokens ∧ (ws.length = i + 1 ∨ PathFits (ws.getD 0 [])) := by
  have hle := h.length_le
  have hlen := h.length_eq
  have hzero (env : ShellEnv) := argAt_set env args hpos.ne'
  have hnext (env : ShellEnv) := argAt_set env args (by omega : i ≠ i + 1)
  constructor
  · intro hall
    let env : ShellEnv := ⟨true, true, true, fun _ => none⟩
    have hlog := hall env
    have hread : i + 1 < maxTokens := hlog (.readArg (i + 1)) mem_cons_self
    rcases Nat.eq_or_lt_of_le hi with hlast | hmore
    · exact ⟨hread, .inl hlast.symm⟩
    obtain ⟨q, hq, -⟩ := h.argAt_of_lt env hmore
    have hsome : ¬(argAt env args (i + 1) = none ∨ !env.openOk) := by simp [hq, env]
    simp only [redirectCommand, hzero, hnext, if_neg hsome] at hlog
    have hpath := hlog (.path (resolveCmd (argText m (argAt env args 0)))) (by simp)
    exact ⟨hread, .inr ((h.path_ok_iff env (by omega)).mp hpath)⟩
  · rintro ⟨hread, hfits⟩ env
    simp only [redirectCommand, hzero, hnext]
    refine forall_mem_cons.mpr ⟨hread, ?_⟩
    split
    · nofun
    next hgoes =>
    have hmore : i + 1 < ws.length := by
      by_contra hlast
      exact hgoes (.inl (h.argAt_of_ge env (by omega) hread))
    have hfits := hfits.resolve_left (by omega)
    simp only [forall_mem_cons, not_mem_nil, false_imp_iff, implies_true, and_true]
    exact ⟨(by decide : 0 < maxTokens), (h.path_ok_iff env (by omega)).mpr hfits, h.vector_set_ok hi⟩

theorem shellCommand_ok_iff (h : Parsed m args ptrs ws) :
    (∀ env, ∀ ev ∈ shellCommand env m args ptrs.length, ev.Ok args) ↔ HasRoom ws := by
  have hlen := h.length_eq
  rcases Nat.eq_zero_or_pos ws.length with hnil | hpos
  · have hws : ws = [] := length_eq_zero_iff.mp hnil
    simp [shellCommand, HasRoom, hlen, hws]
  have hne : ws ≠ [] := ne_nil_of_length_pos hpos
  have hread : ShellEvent.Ok args (.readArg 0) := (by decide : 0 < maxTokens)
  have htext (env : ShellEnv) : argText m (argAt env args 0) = ws.getD 0 [] := by
    obtain ⟨q, hq, htext⟩ := h.argAt_of_lt env hpos
    rw [hq, htext]
  simp only [shellCommand, if_neg (by omega : ¬ptrs.length = 0), htext, forall_mem_cons, hread,
    true_and]
  cases hfind : builtins.find? fun b => b.1 = ws.getD 0 [] with
  | some b =>
    have hmem := mem_of_find?_eq_some hfind
    have hname : b.1 = ws.getD 0 [] := by simpa using find?_some hfind
    have hreads : ∀ b ∈ builtins, ∀ j ∈ b.2, j < maxTokens := by decide
    refine iff_of_true (fun _ ev hev => ?_) (.inr (.inl (hname ▸ mem_map_of_mem hmem)))
    obtain ⟨j, hj, rfl⟩ := mem_map.mp hev
    exact hreads b hmem j hj
  | none =>
    have hother : ws.getD 0 [] ∉ builtins.map Prod.fst := by
      intro hmem
      obtain ⟨b, hb, hname⟩ := mem_map.mp hmem
      have hnot := find?_eq_none.mp hfind b hb
      simp [hname] at hnot
    have hop (env : ShellEnv) := h.findOperator_spec env (i := 0) (n := ptrs.length) (by omega)
    simp only [drop_zero, zero_add] at hop
    simp only [forall_mem_append, (hop _).2]
    refine (forall_congr' fun env => and_iff_right (hop env).1).trans ?_
    have hspawn : (∀ env, ∀ ev ∈ cmdSpawn env m args ptrs.length, ev.Ok args) ↔ PathFits (ws.getD 0 []) :=
      ⟨fun hall => (h.cmdSpawn_ok_iff ⟨true, true, true, fun _ => none⟩ hpos).mp (hall _),
        fun hfits env => (h.cmdSpawn_ok_iff env hpos).mpr hfits⟩
    rw [HasRoom, or_iff_right hne, or_iff_right hother]
    cases hfirst : ws.findIdx? isOperator with
    | none => exact hspawn
    | some i =>
      have hi : i < ws.length := (findIdx?_eq_some_iff_getElem.mp hfirst).1
      cases i with
      | zero =>
        simp only [map_some]
        cases decide (ws.getD 0 [] = ascii "|") <;> exact hspawn
      | succ i =>
        simp only [map_some]
        by_cases hpipe : ws.getD (i + 1) [] = ascii "|"
        · rw [if_pos hpipe, decide_eq_true hpipe]
          simp only [if_pos (succ_pos i)]
          exact h.pipeCommand_ok_iff (succ_pos i) hi
        · rw [if_neg hpipe, decide_eq_false hpipe]
          simp only [if_pos (succ_pos i)]
          exact h.redirectCommand_ok_iff (succ_pos i) hi

end Parsed

/-! ### Lines that stay in their arrays -/

/-- The buffer after the line has been read and its newline removed. -/
theorem strAt_line (m : ByteMem) (hline : line.length < shellBufLen) :
    StrAt (stripNewline ((m.blit 0 line).store 1 line.length 0)
      (((m.blit 0 line).store 1 line.length 0).cstr shellBufLen 0).length) 0 (lineText line) := by
  have hbytes : ((m.blit 0 line).store 1 line.length 0).bytes 0 (line ++ [0]).length = line ++ [0] := by
    have hbefore : ((m.blit 0 line).store 1 line.length 0).bytes 0 line.length
        = (m.blit 0 line).bytes 0 line.length :=
      bytes_congr fun x _ hx => store_apply_of_not_mem _ (by omega)
    have hnul : (m.blit 0 line).store 1 line.length 0 line.length = 0 := by
      rw [store_apply_of_mem _ ⟨le_rfl, by omega⟩]
      simp
    rw [length_append, length_singleton, bytes_succ, hbefore, bytes_blit_self, zero_add, hnul]
  have hstr := StrAt.of_bytes hbytes (by simp)
  have htext : (line ++ [0]).takeWhile (· ≠ 0) = line.takeWhile (· ≠ 0) := by
    rw [takeWhile_append]
    split
    · next hall =>
      rw [(takeWhile_sublist _).eq_of_length hall]
      simp
    · rfl
  rw [htext] at hstr
  rw [hstr.cstr_eq (lt_of_le_of_lt (takeWhile_sublist _).length_le hline)]
  exact stripNewline_spec hstr

/-- **When the shell stays in its arrays**: exactly if there is room for the words of the line. -/
theorem shell_line_iff (m : ByteMem) (line : List UInt8) (hline : line.length ≤ 127) :
    (∀ env, ∀ ev ∈ (shellLine env m line).1, ev.Ok (shellLine env m line).2) ↔ HasRoom (lineWords line) := by
  have hline : line.length < shellBufLen := lt_succ_of_le hline
  by_cases hnil : line = []
  · subst hnil
    exact iff_of_true (by simp [shellLine]) (.inl (by decide))
  have hstr := strAt_line m hline
  simp only [shellLine, if_neg hnil]
  generalize stripNewline ((m.blit 0 line).store 1 line.length 0)
    (((m.blit 0 line).store 1 line.length 0).cstr shellBufLen 0).length = m₁ at hstr ⊢
  by_cases hend : m₁ 0 = 0
  · have htext := hstr.byte_eq_zero_iff.mp hend
    simp only [if_pos hend]
    exact iff_of_true (by simp) (.inl (by rw [lineWords, htext]; decide))
  simp only [if_neg hend]
  have hshort : (lineText line).length < shellBufLen := by
    refine lt_of_le_of_lt ?_ hline
    exact (List.rdropWhile_prefix _ _).length_le.trans (takeWhile_sublist _).length_le
  obtain ⟨ptrs, hptrs, hwords, -⟩ := tokenize_spec maxTokens [] hstr (by rwa [zero_add])
  rw [nil_append] at hptrs
  have hparsed : Parsed (tokenize m₁ maxTokens 0 []).1
      (ptrs.map some ++ List.replicate (maxTokens - ptrs.length) none) ptrs (lineWords line) := by
    refine ⟨rfl, hwords, ?_, fun w hw => ?_⟩
    · rw [hwords.length_eq]
      exact length_take_le _ _
    · have hpiece := components_sublist (mem_of_mem_take hw)
      exact lt_of_le_of_lt hpiece.length_le hshort
  rw [hptrs]
  exact hparsed.shellCommand_ok_iff

/-- With four words and a pipe, the vector of the second command runs past the array. -/
theorem shell_line_pipe : ∃ env : ShellEnv, ∃ ev ∈ (shellLine env (fun _ => 0) (ascii "a | b c\n")).1,
    ¬ev.Ok (shellLine env (fun _ => 0) (ascii "a | b c\n")).2 := by
  refine ⟨⟨true, true, true, fun _ => none⟩, .vector [some 4, some 6], by decide +kernel, ?_⟩
  rintro ⟨ptrs, rest, heq, -⟩
  have hnull : none ∈ [some 4, some 6] := by simp [heq]
  simp at hnull

/-- Three words with a pipe have room. -/
theorem shell_line_iff_pipe : HasRoom (lineWords (ascii "a | b\n")) ∧
    ∀ env, ∀ ev ∈ (shellLine env (fun _ => 0) (ascii "a | b\n")).1,
      ev.Ok (shellLine env (fun _ => 0) (ascii "a | b\n")).2 := by
  have hwords : lineWords (ascii "a | b\n") = [ascii "a", ascii "|", ascii "b"] := by decide +kernel
  have hroom : HasRoom (lineWords (ascii "a | b\n")) := by
    rw [hwords]
    exact .inr (.inr ⟨by decide, .inr ⟨.inr (by decide), .inr (by decide)⟩⟩)
  exact ⟨hroom, (shell_line_iff (fun _ => 0) (ascii "a | b\n") (by decide)).mpr hroom⟩

end Neptune
