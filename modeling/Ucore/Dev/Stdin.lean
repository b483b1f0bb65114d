import Mathlib.Data.List.Infix
import Mathlib.Tactic

/-!
# The keyboard

`kern/fs/devs/dev_stdin.c`: a ring of characters that the interrupt of the keyboard fills and that
the callers of `dev_stdin_read` empty. Interrupts are off inside the two routines, so that a call is
cut only where it goes to sleep.

`dev_stdin_write` stores the character before it looks whether there is room. In a full ring the
place behind the last character is the place of the first one. The main result is `lossless_iff`: a
run delivers what was accepted, and keeps the rest, exactly when no character arrives at a full
ring, but for one that is equal to the oldest there.
-/

namespace Ucore.Stdin

def stdinBufsize : ℕ := 4096

/-- A call of `dev_stdin_read` that has gone to sleep. -/
structure Wait where
  /-- `len - ret`. -/
  missing : ℕ
  /-- What has been put into the buffer of the caller. -/
  buf : List UInt8
  /-- `wait->wakeup_flags` is `WT_KBD`. -/
  kbd : Bool
  /-- The caller can run again. -/
  runnable : Bool
  deriving DecidableEq, Repr

/-- The variables of `dev_stdin.c`, and the calls that have not returned. -/
structure Dev where
  /-- `stdin_buffer`. -/
  stdinBuffer : ℕ → UInt8
  /-- `p_rpos`. -/
  rpos : ℕ
  /-- `p_wpos`. -/
  wpos : ℕ
  /-- `wait_queue`. -/
  waitQueue : List ℕ
  /-- The call that a process is in. -/
  call : ℕ → Option Wait

/-- What a reader notices. -/
inductive Event
  /-- A character is put into the buffer of reader `i`. -/
  | deliver (i : ℕ) (c : UInt8)
  /-- The call of reader `i` returns. -/
  | ret (i n : ℕ)
  deriving DecidableEq, Repr

namespace Dev

/-- `wakeup_queue`, with `WT_KBD`: the whole queue is woken up. -/
def wakeupQueue (d : Dev) : Dev :=
  { d with
    waitQueue := []
    call := fun i ↦ if i ∈ d.waitQueue then
        (d.call i).map fun w ↦ { w with kbd := true, runnable := true } else d.call i }

def devStdinWrite (d : Dev) (c : UInt8) : Dev :=
  if c ≠ 0 then
    let d := { d with
      stdinBuffer := Function.update d.stdinBuffer (d.wpos % stdinBufsize) c }
    let d := if d.wpos - d.rpos < stdinBufsize then { d with wpos := d.wpos + 1 } else d
    if d.waitQueue ≠ [] then d.wakeupQueue else d
  else d

/-- The loop of `dev_stdin_read`, up to where it ends or has to wait: the characters it takes, how
many are still missing, and the device. -/
def readLoop : ℕ → Dev → List UInt8 × ℕ × Dev
  | 0, d => ([], 0, d)
  | n + 1, d =>
    if d.rpos < d.wpos then
      let (cs, missing, d') := readLoop n { d with rpos := d.rpos + 1 }
      (d.stdinBuffer (d.rpos % stdinBufsize) :: cs, missing, d')
    else ([], n + 1, d)

/-- A stretch of `dev_stdin_read` without a sleep, in which `missing` characters are missing and
`buf` has been delivered: it returns, or `wait_current_set` puts the caller to sleep. -/
def resumeRead (d : Dev) (i missing : ℕ) (buf : List UInt8) : List Event × Dev :=
  let (cs, missing', d') := readLoop missing d
  let got := buf ++ cs
  if missing' = 0 then
    (cs.map (.deliver i) ++ [.ret i got.length], { d' with call := Function.update d'.call i none })
  else
    (cs.map (.deliver i),
      { d' with
        waitQueue := d'.waitQueue ++ [i]
        call := Function.update d'.call i (some ⟨missing', got, false, false⟩) })

end Dev

/-- What can happen. -/
inductive Act
  /-- A character comes in. -/
  | write (c : UInt8)
  /-- Process `i` calls `dev_stdin_read`. -/
  | read (i len : ℕ)
  /-- The sleeping process `i` is killed, and so woken up. -/
  | kill (i : ℕ)
  /-- Process `i` comes back from `schedule`. -/
  | wake (i : ℕ)
  deriving DecidableEq, Repr

/-- One action; one that cannot happen changes nothing. -/
def step (d : Dev) : Act → List Event × Dev
  | .write c => ([], d.devStdinWrite c)
  | .read i len =>
    match d.call i with
    | none => d.resumeRead i len []
    | some _ => ([], d)
  | .kill i =>
    ([], { d with
      call := Function.update d.call i ((d.call i).map fun w ↦ { w with runnable := true }) })
  | .wake i =>
    match d.call i with
    | none => ([], d)
    | some w =>
      if w.runnable = true then
        -- `wait_current_del`
        let d := { d with waitQueue := d.waitQueue.erase i }
        if w.kbd = true then d.resumeRead i w.missing w.buf
        else ([.ret i w.buf.length], { d with call := Function.update d.call i none })
      else ([], d)

/-! ## Runs -/

/-- The device, with the characters that it has accepted and delivered. A character is accepted when
there is room for it. -/
structure Ledger where
  dev : Dev
  accepted : List UInt8
  delivered : List UInt8

/-- The characters an action has accepted. -/
def Act.accepts (d : Dev) : Act → List UInt8
  | .write c => if c ≠ 0 ∧ d.wpos - d.rpos < stdinBufsize then [c] else []
  | _ => []

/-- The characters that are put into buffers of callers. -/
def deliveries (l : List Event) : List UInt8 := l.filterMap fun e ↦
  match e with
  | .deliver _ c => some c
  | .ret _ _ => none

/-- One action, with the accounts. -/
def Ledger.step (l : Ledger) (a : Act) : Ledger where
  dev := (Stdin.step l.dev a).2
  accepted := l.accepted ++ a.accepts l.dev
  delivered := l.delivered ++ deliveries (Stdin.step l.dev a).1

/-- The device after `stdin_device_init`. -/
def start : Dev := ⟨fun _ ↦ 0, 0, 0, [], fun _ ↦ none⟩

/-- A run, from the start. -/
def run (acts : List Act) : Ledger := acts.foldl Ledger.step ⟨start, [], []⟩

theorem run_concat (acts : List Act) (a : Act) : run (acts ++ [a]) = (run acts).step a := by
  rw [run, run, List.foldl_append, List.foldl_cons, List.foldl_nil]

/-- The characters that can still be read. -/
def Dev.pending (d : Dev) : List UInt8 :=
  (List.range' d.rpos (d.wpos - d.rpos)).map fun k ↦ d.stdinBuffer (k % stdinBufsize)

/-- What was accepted has been delivered, in that order, or waits unaltered in the ring. -/
def Lossless (l : Ledger) : Prop := l.delivered ++ l.dev.pending = l.accepted

/-- No character but the oldest one of the ring arrives at a full ring. -/
def Act.Fits (d : Dev) : Act → Prop
  | .write c => c = 0 ∨ d.wpos - d.rpos < stdinBufsize ∨ c = d.stdinBuffer (d.rpos % stdinBufsize)
  | _ => True

/-- The positions are in order and at most one ring apart. -/
structure Dev.Ok (d : Dev) : Prop where
  le : d.rpos ≤ d.wpos
  room : d.wpos ≤ d.rpos + stdinBufsize

variable {d : Dev} {l : Ledger} {acts : List Act}

/-! ## Reading -/

theorem pending_cons (h : d.rpos < d.wpos) :
    d.pending = d.stdinBuffer (d.rpos % stdinBufsize) :: { d with rpos := d.rpos + 1 }.pending := by
  obtain ⟨n, hn⟩ : ∃ n, d.wpos - d.rpos = n + 1 := ⟨d.wpos - d.rpos - 1, by omega⟩
  have hn' : d.wpos - (d.rpos + 1) = n := by omega
  rw [Dev.pending, Dev.pending, hn, List.range'_succ, List.map_cons, hn']

/-- The loop takes characters from the front of the ring. -/
theorem readLoop_pending (n : ℕ) (h : d.Ok) :
    (Dev.readLoop n d).1 ++ (Dev.readLoop n d).2.2.pending = d.pending ∧
      (Dev.readLoop n d).2.2.Ok := by
  induction n generalizing d with
  | zero => exact ⟨rfl, h⟩
  | succ n ih =>
    rw [Dev.readLoop]
    by_cases hlt : d.rpos < d.wpos
    · rw [if_pos hlt]
      obtain ⟨hpending, hok⟩ := ih (d := { d with rpos := d.rpos + 1 })
        ⟨hlt, h.room.trans (by simp only; omega)⟩
      refine ⟨?_, hok⟩
      rw [pending_cons hlt, List.cons_append, hpending]
    · rw [if_neg hlt]
      exact ⟨rfl, h⟩

theorem deliveries_map (i : ℕ) (cs : List UInt8) : deliveries (cs.map (.deliver i)) = cs := by
  induction cs with
  | nil => rfl
  | cons c cs ih => exact congrArg (c :: ·) ih

theorem deliveries_append (l l' : List Event) :
    deliveries (l ++ l') = deliveries l ++ deliveries l' :=
  List.filterMap_append

/-- What a stretch of a call delivers is what it takes from the ring. -/
theorem resumeRead_pending (h : d.Ok) (i n : ℕ) (buf : List UInt8) :
    deliveries (d.resumeRead i n buf).1 ++ (d.resumeRead i n buf).2.pending = d.pending ∧
      (d.resumeRead i n buf).2.Ok := by
  obtain ⟨hpending, hok⟩ := readLoop_pending n h
  rcases hloop : Dev.readLoop n d with ⟨cs, missing, d'⟩
  rw [hloop] at hpending hok
  rw [Dev.resumeRead, hloop]
  by_cases hm : missing = 0
  · simp only [if_pos hm]
    refine ⟨?_, hok.le, hok.room⟩
    rw [deliveries_append, deliveries_map, show deliveries [Event.ret i _] = [] from rfl,
      List.append_nil]
    exact hpending
  · simp only [if_neg hm]
    refine ⟨?_, hok.le, hok.room⟩
    rw [deliveries_map]
    exact hpending

/-! ## Writing -/

/-- Waking the readers up leaves the ring alone. -/
theorem wakeup_ring (d : Dev) :
    (if d.waitQueue ≠ [] then d.wakeupQueue else d).pending = d.pending ∧
      ((if d.waitQueue ≠ [] then d.wakeupQueue else d).Ok ↔ d.Ok) := by
  split
  · exact ⟨rfl, fun h ↦ ⟨h.le, h.room⟩, fun h ↦ ⟨h.le, h.room⟩⟩
  · exact ⟨rfl, Iff.rfl⟩

/-- With room in the ring the character goes behind the others. -/
theorem devStdinWrite_of_lt (h : d.Ok) {c : UInt8} (hc : c ≠ 0)
    (hlt : d.wpos - d.rpos < stdinBufsize) :
    (d.devStdinWrite c).pending = d.pending ++ [c] ∧ (d.devStdinWrite c).Ok := by
  have hle := h.le
  rw [Dev.devStdinWrite, if_pos hc]
  simp only [if_pos hlt]
  obtain ⟨hpending, hok⟩ := wakeup_ring { d with
    stdinBuffer := Function.update d.stdinBuffer (d.wpos % stdinBufsize) c
    wpos := d.wpos + 1 }
  refine ⟨hpending.trans ?_, hok.mpr ⟨by simp only; omega, by simp only; omega⟩⟩
  have hlen : d.wpos + 1 - d.rpos = d.wpos - d.rpos + 1 := by omega
  have hlast : d.rpos + (d.wpos - d.rpos) = d.wpos := by omega
  rw [Dev.pending, Dev.pending, hlen, List.range'_1_concat, List.map_append, List.map_singleton,
    hlast]
  simp only [Function.update_self]
  congr 1
  refine List.map_congr_left fun k hk ↦ Function.update_of_ne ?_ _ _
  -- two places of one ring are different as long as they are less than a ring apart
  rw [List.mem_range'_1] at hk
  rw [stdinBufsize] at hlt ⊢
  omega

/-- In a full ring it goes where the oldest one is. -/
theorem devStdinWrite_of_full (h : d.Ok) {c : UInt8} (hc : c ≠ 0)
    (hfull : ¬d.wpos - d.rpos < stdinBufsize) :
    (d.devStdinWrite c).pending = c :: d.pending.tail ∧ (d.devStdinWrite c).Ok := by
  have hle := h.le
  have hroom := h.room
  have heq : d.wpos = d.rpos + stdinBufsize := by omega
  rw [Dev.devStdinWrite, if_pos hc]
  simp only [if_neg hfull]
  obtain ⟨hpending, hok⟩ := wakeup_ring { d with
    stdinBuffer := Function.update d.stdinBuffer (d.wpos % stdinBufsize) c }
  refine ⟨hpending.trans ?_, hok.mpr ⟨hle, hroom⟩⟩
  have hlt : d.rpos < d.wpos := by
    rw [heq, stdinBufsize]
    omega
  have hslot : d.wpos % stdinBufsize = d.rpos % stdinBufsize := by rw [heq, Nat.add_mod_right]
  refine (pending_cons (d := { d with
    stdinBuffer := Function.update d.stdinBuffer (d.wpos % stdinBufsize) c }) hlt).trans ?_
  rw [pending_cons hlt, List.tail_cons]
  simp only [hslot, Function.update_self, List.cons.injEq, true_and]
  refine List.map_congr_left fun k hk ↦ Function.update_of_ne ?_ _ _
  have hk' : d.rpos + 1 ≤ k ∧ k < d.rpos + 1 + (d.wpos - (d.rpos + 1)) := List.mem_range'_1.mp hk
  rw [stdinBufsize] at heq ⊢
  omega

theorem devStdinWrite_zero (d : Dev) : d.devStdinWrite 0 = d := if_neg (not_not.mpr rfl)

theorem devStdinWrite_rpos (d : Dev) (c : UInt8) : (d.devStdinWrite c).rpos = d.rpos := by
  rw [Dev.devStdinWrite]
  split
  · simp only
    split
    · split <;> rfl
    · split <;> rfl
  · rfl

theorem devStdinWrite_wpos {c : UInt8} (hc : c ≠ 0) (hlt : d.wpos - d.rpos < stdinBufsize) :
    (d.devStdinWrite c).wpos = d.wpos + 1 := by
  rw [Dev.devStdinWrite, if_pos hc]
  simp only [if_pos hlt]
  split <;> rfl

/-! ## What one action does -/

/-- The positions stay in order, and the accounts stay right exactly when the character fits. -/
theorem ledger_step (h : l.dev.Ok) (hl : Lossless l) (a : Act) :
    (l.step a).dev.Ok ∧ (Lossless (l.step a) ↔ a.Fits l.dev) := by
  -- a reader takes characters from the front and accepts none
  have hread : ∀ o : List Event × Dev, deliveries o.1 ++ o.2.pending = l.dev.pending →
      l.delivered ++ deliveries o.1 ++ o.2.pending = l.accepted ++ [] := by
    intro o ho
    rw [List.append_assoc, ho, List.append_nil]
    exact hl
  cases a with
  | write c =>
    rw [Lossless, Ledger.step, step, Act.accepts, Act.Fits]
    simp only [show deliveries [] = [] from rfl, List.append_nil]
    rcases eq_or_ne c 0 with rfl | hc
    · rw [devStdinWrite_zero, if_neg (fun hcon ↦ hcon.1 rfl), List.append_nil]
      exact ⟨h, fun _ ↦ .inl rfl, fun _ ↦ hl⟩
    by_cases hlt : l.dev.wpos - l.dev.rpos < stdinBufsize
    · obtain ⟨hpending, hok⟩ := devStdinWrite_of_lt h hc hlt
      rw [hpending, if_pos ⟨hc, hlt⟩, ← List.append_assoc, hl]
      exact ⟨hok, fun _ ↦ .inr (.inl hlt), fun _ ↦ rfl⟩
    · obtain ⟨hpending, hok⟩ := devStdinWrite_of_full h hc hlt
      have hne : l.dev.rpos < l.dev.wpos := by
        rw [stdinBufsize] at hlt
        omega
      rw [hpending, if_neg fun hcon ↦ hlt hcon.2, List.append_nil, ← hl, pending_cons hne,
        List.tail_cons, List.append_cancel_left_eq, List.cons.injEq]
      refine ⟨hok, fun heq ↦ .inr (.inr heq.1), ?_⟩
      rintro (hcon | hcon | hcon)
      · exact absurd hcon hc
      · exact absurd hcon hlt
      · exact ⟨hcon, rfl⟩
  | read i len =>
    rw [Lossless, Ledger.step, step]
    cases l.dev.call i with
    | none =>
      obtain ⟨hpending, hok⟩ := resumeRead_pending h i len []
      exact ⟨hok, fun _ ↦ trivial, fun _ ↦ hread _ hpending⟩
    | some w => exact ⟨h, fun _ ↦ trivial, fun _ ↦ hread ([], l.dev) rfl⟩
  | kill i => exact ⟨⟨h.le, h.room⟩, fun _ ↦ trivial, fun _ ↦ hread ([], _) rfl⟩
  | wake i =>
    rw [Lossless, Ledger.step, step]
    cases l.dev.call i with
    | none => exact ⟨h, fun _ ↦ trivial, fun _ ↦ hread ([], l.dev) rfl⟩
    | some w =>
      simp only
      by_cases hrun : w.runnable = true
      · rw [if_pos hrun]
        by_cases hkbd : w.kbd = true
        · rw [if_pos hkbd]
          have hok' : { l.dev with waitQueue := l.dev.waitQueue.erase i }.Ok := ⟨h.le, h.room⟩
          obtain ⟨hpending, hok⟩ := resumeRead_pending hok' i w.missing w.buf
          exact ⟨hok, fun _ ↦ trivial, fun _ ↦ hread _ hpending⟩
        · rw [if_neg hkbd]
          exact ⟨⟨h.le, h.room⟩, fun _ ↦ trivial, fun _ ↦ hread ([.ret i _], _) rfl⟩
      · rw [if_neg hrun]
        exact ⟨h, fun _ ↦ trivial, fun _ ↦ hread ([], l.dev) rfl⟩

theorem run_ok (acts : List Act) (hall : ∀ pre, pre <+: acts → Lossless (run pre)) :
    (run acts).dev.Ok := by
  induction acts using List.reverseRecOn with
  | nil => exact ⟨le_rfl, Nat.zero_le _⟩
  | append_singleton acts a ih =>
    rw [run_concat]
    have hpre : acts <+: acts ++ [a] := List.prefix_append acts [a]
    exact (ledger_step (ih fun pre h ↦ hall pre (h.trans hpre)) (hall acts hpre) a).1

/-- A run delivers what it has accepted, in order, and keeps the rest unaltered in the ring, exactly
when every character finds room, or is equal to the oldest of a full ring. -/
theorem lossless_iff (acts : List Act) :
    (∀ pre, pre <+: acts → Lossless (run pre)) ↔
      ∀ pre a, pre ++ [a] <+: acts → a.Fits (run pre).dev := by
  constructor
  · intro hall pre a hpre
    have hprefix : pre <+: acts := (List.prefix_append pre [a]).trans hpre
    have hok := run_ok pre fun pre' h ↦ hall pre' (h.trans hprefix)
    have hnext := hall _ hpre
    rw [run_concat] at hnext
    exact (ledger_step hok (hall pre hprefix) a).2.mp hnext
  · intro hfits
    have hboth : ∀ pre, pre <+: acts → Lossless (run pre) ∧ (run pre).dev.Ok := by
      intro pre
      induction pre using List.reverseRecOn with
      | nil => exact fun _ ↦ ⟨rfl, le_rfl, Nat.zero_le _⟩
      | append_singleton pre a ih =>
        intro hpre
        obtain ⟨hl, hok⟩ := ih ((List.prefix_append pre [a]).trans hpre)
        obtain ⟨hok', hiff⟩ := ledger_step hok hl a
        rw [run_concat]
        exact ⟨hiff.mpr (hfits pre a hpre), hok'⟩
    exact fun pre hpre ↦ (hboth pre hpre).1

/-- Until the ring is full, every character of a burst is accepted. -/
theorem run_burst {n : ℕ} (hn : n ≤ stdinBufsize) :
    Lossless (run (List.replicate n (.write 1))) ∧ (run (List.replicate n (.write 1))).dev.Ok ∧
      (run (List.replicate n (.write 1))).dev.rpos = 0 ∧
      (run (List.replicate n (.write 1))).dev.wpos = n ∧
      (run (List.replicate n (.write 1))).delivered = [] ∧
      (run (List.replicate n (.write 1))).accepted = List.replicate n 1 := by
  induction n with
  | zero => exact ⟨rfl, ⟨le_rfl, Nat.zero_le _⟩, rfl, rfl, rfl, rfl⟩
  | succ n ih =>
    obtain ⟨hl, hok, hr, hw, hd, ha⟩ := ih (by omega)
    obtain ⟨hok', hiff⟩ := ledger_step hok hl (.write 1)
    have hlt : (run (List.replicate n (.write 1))).dev.wpos -
        (run (List.replicate n (.write 1))).dev.rpos < stdinBufsize := by
      rw [hr, hw]
      omega
    rw [List.replicate_succ', run_concat]
    refine ⟨hiff.mpr (.inr (.inl hlt)), hok', ?_, ?_, ?_, ?_⟩
    · rw [Ledger.step, step, devStdinWrite_rpos, hr]
    · rw [Ledger.step, step, devStdinWrite_wpos (by decide) hlt, hw]
    · rw [Ledger.step, step, hd]
      rfl
    · rw [Ledger.step, Act.accepts, if_pos ⟨by decide, hlt⟩, ha, ← List.replicate_succ']

/-- The ring is filled with the character 1, and a 2 comes in. -/
def overflow : List Act := List.replicate stdinBufsize (.write 1) ++ [.write 2]

/-- The oldest character of a full ring is lost: the next one takes its place. -/
theorem overflow_loses : ¬∀ pre, pre <+: overflow → Lossless (run pre) := by
  intro hall
  obtain ⟨hl, hok, hr, hw, hd, ha⟩ := run_burst (le_refl stdinBufsize)
  have hlast := hall overflow (List.prefix_refl _)
  rw [overflow, run_concat] at hlast
  rcases (ledger_step hok hl (.write 2)).2.mp hlast with hcon | hcon | hcon
  · exact absurd hcon (by decide)
  · rw [hr, hw, Nat.sub_zero] at hcon
    exact absurd hcon (lt_irrefl _)
  -- the oldest character is the first one of the burst
  rw [Lossless, hd, ha, List.nil_append, pending_cons (by rw [hr, hw]; decide), ← hcon] at hl
  exact absurd (List.eq_of_mem_replicate (hl ▸ List.mem_cons_self)) (by decide)

end Ucore.Stdin
