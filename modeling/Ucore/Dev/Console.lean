import Mathlib.Data.List.Infix
import Mathlib.Tactic

/-!
# The ring of the console

`kern/driver/console.c`: a ring of characters that `cons_intr` fills and `cons_getc` empties. Equal
positions mean that the ring is empty, and `cons_intr` does not look where the reader is. The place
that closes the circle makes a ring of 512 unread characters look empty.

The main result is `lossless_iff_room`: a run returns the characters in their order and keeps the
others, exactly when there never are more than 511 of them unread.
-/

namespace Ucore.Console

def consBufSize : ℕ := 512

structure Cons where
  buf : ℕ → UInt8
  rpos : ℕ
  wpos : ℕ

/-- A position moves on, `cons.rpos` or `cons.wpos`. -/
def advance (pos : ℕ) : ℕ := if pos + 1 = consBufSize then 0 else pos + 1

namespace Cons

variable (cons : Cons)

/-- `cons_intr` stores a character. -/
def put (c : UInt8) : Cons :=
  { cons with
    buf := Function.update cons.buf cons.wpos c
    wpos := advance cons.wpos }

/-- `cons_intr`, for what `proc` returns before it returns `-1`. -/
def consIntr : List UInt8 → Cons → Cons
  | [], cons => cons
  | c :: burst, cons => consIntr burst (if c ≠ 0 then cons.put c else cons)

end Cons

/-- `serial_proc_data`, on a character that `sbi_console_getchar` found. -/
def serialProcData (c : UInt8) : UInt8 := if c = 127 then 8 else c

namespace Cons

variable (cons : Cons)

def serialIntr (sbi : List UInt8) : Cons := consIntr (sbi.map serialProcData) cons

/-- The second half of `cons_getc`. -/
def take : UInt8 × Cons :=
  if cons.rpos ≠ cons.wpos then
    (cons.buf cons.rpos, { cons with rpos := advance cons.rpos })
  else (0, cons)

/-- `cons_getc`; the characters `sbi` are waiting at the serial port. -/
def consGetc (sbi : List UInt8) : UInt8 × Cons := (cons.serialIntr sbi).take

/-- The number of unread characters. -/
def unread : ℕ := (cons.wpos + consBufSize - cons.rpos) % consBufSize

/-- The unread characters, oldest first. -/
def pending : List UInt8 :=
  (List.range cons.unread).map fun i ↦ cons.buf ((cons.rpos + i) % consBufSize)

end Cons

/-- What can happen. -/
inductive Act
  /-- An interrupt routine feeds characters. -/
  | intr (burst : List UInt8)
  /-- A call of `cons_getc`, with characters waiting at the serial port. -/
  | getc (sbi : List UInt8)
  deriving DecidableEq, Repr

/-- The characters of a burst that are accepted. -/
def nonzero (burst : List UInt8) : List UInt8 := burst.filter (· ≠ 0)

namespace Act

/-- The characters that an action accepts. -/
def accepts : Act → List UInt8
  | intr burst => nonzero burst
  | getc sbi => nonzero (sbi.map serialProcData)

end Act

/-- The console, with the characters accepted and the characters returned so far. -/
structure Ledger where
  cons : Cons
  accepted : List UInt8
  returned : List UInt8

/-- The characters returned, after a call of `cons_getc` that returns `c`: none if `c` is zero. -/
def collect (returned : List UInt8) (c : UInt8) : List UInt8 :=
  if c ≠ 0 then returned ++ [c] else returned

namespace Ledger

variable (l : Ledger)

/-- One action. -/
def step (a : Act) : Ledger :=
  match a with
  | .intr burst => { l with
      cons := Cons.consIntr burst l.cons
      accepted := l.accepted ++ a.accepts }
  | .getc sbi =>
    { cons := (l.cons.consGetc sbi).2
      accepted := l.accepted ++ a.accepts
      returned := collect l.returned (l.cons.consGetc sbi).1 }

/-- The characters were returned in the order in which they came in, and the others are unread. -/
def Lossless : Prop := l.returned ++ l.cons.pending = l.accepted

end Ledger

/-- The console at the start. -/
def start : Ledger := ⟨⟨fun _ ↦ 0, 0, 0⟩, [], []⟩

/-- A run. -/
def run (acts : List Act) : Ledger := acts.foldl Ledger.step start

theorem run_concat (acts : List Act) (a : Act) : run (acts ++ [a]) = (run acts).step a := by
  rw [run, List.foldl_append, List.foldl_cons, List.foldl_nil, run]

/-! ## The ring -/

theorem advance_eq {pos : ℕ} (h : pos < consBufSize) : advance pos = (pos + 1) % consBufSize := by
  rw [advance]
  by_cases hend : pos + 1 = consBufSize
  · rw [if_pos hend, hend, Nat.mod_self]
  · rw [if_neg hend, Nat.mod_eq_of_lt (by omega)]

theorem advance_lt {pos : ℕ} (h : pos < consBufSize) : advance pos < consBufSize := by
  rw [advance_eq h]
  exact Nat.mod_lt _ (by decide)

namespace Cons

variable {cons : Cons}

theorem length_pending (cons : Cons) : cons.pending.length = cons.unread := by
  rw [pending, List.length_map, List.length_range]

theorem unread_lt (cons : Cons) : cons.unread < consBufSize := Nat.mod_lt _ (by decide)

theorem unread_eq_zero (hr : cons.rpos < consBufSize) (hw : cons.wpos < consBufSize) :
    cons.unread = 0 ↔ cons.rpos = cons.wpos := by
  rw [unread]
  rw [consBufSize] at *
  omega

/-- A character more, until the ring looks empty. -/
theorem unread_put (hr : cons.rpos < consBufSize) (hw : cons.wpos < consBufSize) (c : UInt8) :
    (cons.put c).unread = (cons.unread + 1) % consBufSize := by
  have hrpos : (cons.put c).rpos = cons.rpos := rfl
  have hwpos : (cons.put c).wpos = (cons.wpos + 1) % consBufSize := advance_eq hw
  rw [unread, hwpos, hrpos, unread]
  simp only [consBufSize] at *
  omega

/-- A character goes behind the others as long as there is a place left behind it. -/
theorem pending_put (hr : cons.rpos < consBufSize) (hw : cons.wpos < consBufSize) (c : UInt8)
    (hroom : cons.unread + 1 < consBufSize) : (cons.put c).pending = cons.pending ++ [c] := by
  have hlast : (cons.rpos + cons.unread) % consBufSize = cons.wpos := by
    rw [unread]
    rw [consBufSize] at *
    omega
  rw [pending, unread_put hr hw, Nat.mod_eq_of_lt hroom, List.range_succ, List.map_append,
    List.map_singleton]
  refine congrArg₂ _ (List.map_congr_left fun i hi ↦ ?_) ?_
  · -- the place of an unread character is not the one that is written
    refine Function.update_of_ne (fun heq ↦ ?_) _ _
    have hi' : i < cons.unread := List.mem_range.mp hi
    change (cons.rpos + i) % consBufSize = cons.wpos at heq
    rw [← hlast] at heq
    rw [consBufSize] at *
    omega
  · change [Function.update cons.buf cons.wpos c ((cons.rpos + cons.unread) % consBufSize)] = [c]
    rw [hlast, Function.update_self]

/-- What `cons_intr` does to the positions. -/
theorem consIntr_unread (burst : List UInt8) (hr : cons.rpos < consBufSize)
    (hw : cons.wpos < consBufSize) :
    (consIntr burst cons).rpos = cons.rpos ∧ (consIntr burst cons).wpos < consBufSize ∧
      (consIntr burst cons).unread = (cons.unread + (nonzero burst).length) % consBufSize := by
  induction burst generalizing cons with
  | nil => exact ⟨rfl, hw, (Nat.mod_eq_of_lt cons.unread_lt).symm⟩
  | cons c burst ih =>
    rw [consIntr, nonzero]
    by_cases hc : c = 0
    · subst hc
      exact ih hr hw
    · have hw' : (cons.put c).wpos < consBufSize := advance_lt hw
      obtain ⟨hrpos, hwpos, hunread⟩ := @ih (cons.put c) hr hw'
      rw [if_pos hc, List.filter_cons_of_pos (by simpa using hc), List.length_cons]
      refine ⟨hrpos, hwpos, ?_⟩
      rw [hunread, unread_put hr hw, nonzero]
      simp only [consBufSize]
      omega

/-- As long as they fit, the characters of a burst go behind the others. -/
theorem consIntr_pending (burst : List UInt8) (hr : cons.rpos < consBufSize)
    (hw : cons.wpos < consBufSize)
    (hroom : cons.unread + (nonzero burst).length < consBufSize) :
    (consIntr burst cons).pending = cons.pending ++ nonzero burst := by
  induction burst generalizing cons with
  | nil => exact (List.append_nil _).symm
  | cons c burst ih =>
    rw [consIntr]
    by_cases hc : c = 0
    · subst hc
      exact ih hr hw hroom
    · have hcons : nonzero (c :: burst) = c :: nonzero burst :=
        List.filter_cons_of_pos (by simpa using hc)
      rw [hcons, List.length_cons] at hroom
      have hw' : (cons.put c).wpos < consBufSize := advance_lt hw
      have hone : cons.unread + 1 < consBufSize := by omega
      have hroom' : (cons.put c).unread + (nonzero burst).length < consBufSize := by
        rw [unread_put hr hw, Nat.mod_eq_of_lt hone]
        omega
      rw [if_pos hc, @ih (cons.put c) hr hw' hroom', pending_put hr hw c hone, hcons,
        List.append_assoc, List.singleton_append]

/-- `cons_getc` takes the oldest character, if there is one. -/
theorem take_eq (hr : cons.rpos < consBufSize) (hw : cons.wpos < consBufSize) :
    cons.take.2.rpos < consBufSize ∧ cons.take.2.wpos < consBufSize ∧
      (cons.pending = [] ∧ cons.take.1 = 0 ∧ cons.take.2.pending = [] ∨
        cons.pending = cons.take.1 :: cons.take.2.pending) := by
  rw [take]
  by_cases heq : cons.rpos = cons.wpos
  · have hnil : cons.pending = [] := by
      rw [← List.length_eq_zero_iff, length_pending, unread_eq_zero hr hw, heq]
    rw [if_neg (not_not.mpr heq)]
    exact ⟨hr, hw, .inl ⟨hnil, rfl, hnil⟩⟩
  · rw [if_pos heq]
    obtain ⟨n, hn⟩ := Nat.exists_eq_succ_of_ne_zero (mt (unread_eq_zero hr hw).mp heq)
    refine ⟨advance_lt hr, hw, .inr ?_⟩
    have hunread : (cons.wpos + consBufSize - (cons.rpos + 1) % consBufSize) % consBufSize = n := by
      rw [unread] at hn
      simp only [consBufSize] at *
      omega
    rw [pending, hn, List.range_succ_eq_map, List.map_cons, List.map_map, Nat.add_zero,
      Nat.mod_eq_of_lt hr, pending, unread, advance_eq hr, hunread]
    refine congrArg _ (List.map_congr_left fun i _ ↦ ?_)
    change cons.buf ((cons.rpos + i.succ) % consBufSize)
      = cons.buf (((cons.rpos + 1) % consBufSize + i) % consBufSize)
    rw [Nat.mod_add_mod, Nat.add_right_comm, Nat.add_assoc]

end Cons

/-! ## Runs -/

namespace Ledger

variable {l : Ledger}

/-- What holds of the console in a run that has lost nothing. -/
structure Sound (l : Ledger) : Prop where
  rpos : l.cons.rpos < consBufSize
  wpos : l.cons.wpos < consBufSize
  ne_zero : 0 ∉ l.cons.pending

theorem collect_zero (returned : List UInt8) : collect returned 0 = returned :=
  if_neg (not_not.mpr rfl)

theorem collect_of_ne {c : UInt8} (h : c ≠ 0) (returned : List UInt8) :
    collect returned c = returned ++ [c] := if_pos h

theorem length_collect_le (returned : List UInt8) (c : UInt8) :
    (collect returned c).length ≤ returned.length + 1 := by
  by_cases hc : c = 0
  · rw [hc, collect_zero]
    exact Nat.le_succ _
  · rw [collect_of_ne hc, List.length_append, List.length_singleton]

theorem zero_notMem_nonzero (burst : List UInt8) : 0 ∉ nonzero burst := by
  simp [nonzero]

/-- The characters of one action are kept in order when they fit. -/
theorem Sound.step_of_room (h : l.Sound) (hl : l.Lossless) {a : Act}
    (hroom : l.cons.unread + a.accepts.length < consBufSize) :
    (l.step a).Sound ∧ (l.step a).Lossless := by
  have hne : ∀ burst, 0 ∉ l.cons.pending ++ nonzero burst := fun burst hmem ↦
    (List.mem_append.mp hmem).elim h.ne_zero (zero_notMem_nonzero burst)
  cases a with
  | intr burst =>
    obtain ⟨hr, hw, -⟩ := Cons.consIntr_unread burst h.rpos h.wpos
    have hpending := Cons.consIntr_pending burst h.rpos h.wpos hroom
    refine ⟨⟨hr ▸ h.rpos, hw, hpending ▸ hne burst⟩, ?_⟩
    rw [Lossless, step, hpending, ← List.append_assoc, hl]
    rfl
  | getc sbi =>
    obtain ⟨hr, hw, -⟩ := Cons.consIntr_unread (sbi.map serialProcData) h.rpos h.wpos
    have hpending := Cons.consIntr_pending (sbi.map serialProcData) h.rpos h.wpos hroom
    obtain ⟨hr', hw', htake⟩ := Cons.take_eq (hr ▸ h.rpos) hw
    have hnotMem := hpending ▸ hne (sbi.map serialProcData)
    rw [hpending] at htake
    have hall : l.accepted ++ (Act.getc sbi).accepts
        = l.returned ++ (l.cons.pending ++ nonzero (sbi.map serialProcData)) := by
      rw [← List.append_assoc, hl]
      rfl
    rw [Lossless, step, hall]
    rcases htake with ⟨hnil, hzero, hnil'⟩ | hcons
    · -- the ring is empty and nothing is returned
      refine ⟨⟨hr', hw', fun hmem ↦ ?_⟩, ?_⟩
      · exact absurd (hnil' ▸ hmem) List.not_mem_nil
      · rw [hnil, Cons.consGetc, Cons.serialIntr, hzero, collect_zero, hnil']
    · rw [hpending, hcons] at hnotMem
      refine ⟨⟨hr', hw', fun hmem ↦ hnotMem (List.mem_cons_of_mem _ hmem)⟩, ?_⟩
      have hchar : (Cons.consIntr (sbi.map serialProcData) l.cons).take.1 ≠ 0 :=
        fun heq ↦ hnotMem (heq ▸ List.mem_cons_self)
      rw [hcons, Cons.consGetc, Cons.serialIntr, collect_of_ne hchar, List.append_assoc,
        List.singleton_append]

/-- An action that accepts more than there is room for loses what was unread. -/
theorem Sound.room_of_step (h : l.Sound) (hl : l.Lossless) {a : Act} (hnext : (l.step a).Lossless) :
    l.cons.unread + a.accepts.length < consBufSize := by
  have hlen := congrArg List.length hl
  have hlen' := congrArg List.length hnext
  rw [List.length_append, Cons.length_pending] at hlen hlen'
  cases a with
  | intr burst =>
    obtain ⟨-, -, hunread⟩ := Cons.consIntr_unread burst h.rpos h.wpos
    simp only [step, List.length_append, hunread] at hlen'
    change _ = _ + (nonzero burst).length at hlen'
    change _ + (nonzero burst).length < _
    have hlt := Nat.mod_lt (l.cons.unread + (nonzero burst).length) (show consBufSize > 0 by decide)
    omega
  | getc sbi =>
    obtain ⟨hr, hw, hunread⟩ := Cons.consIntr_unread (sbi.map serialProcData) h.rpos h.wpos
    obtain ⟨-, -, htake⟩ := Cons.take_eq (hr ▸ h.rpos) hw
    have hafter := Cons.length_pending (Cons.consIntr (sbi.map serialProcData) l.cons)
    simp only [step, Cons.consGetc, Cons.serialIntr, List.length_append] at hlen'
    change _ = _ + (nonzero (sbi.map serialProcData)).length at hlen'
    change _ + (nonzero (sbi.map serialProcData)).length < _
    have hlt := Nat.mod_lt (l.cons.unread + (nonzero (sbi.map serialProcData)).length)
      (show consBufSize > 0 by decide)
    have hret := length_collect_le l.returned
      (Cons.consIntr (sbi.map serialProcData) l.cons).take.1
    rcases htake with ⟨hnil, hzero, hnil'⟩ | hcons
    · rw [hzero, collect_zero, ← Cons.length_pending, hnil', List.length_nil] at hlen'
      rw [consBufSize]
      omega
    · rw [hcons, List.length_cons, Cons.length_pending] at hafter
      omega

end Ledger

/-- In a run whose bursts find room, nothing is lost. -/
theorem run_sound {acts : List Act}
    (hroom : ∀ pre a, pre ++ [a] <+: acts →
      (run pre).cons.unread + a.accepts.length < consBufSize) :
    (run acts).Sound ∧ (run acts).Lossless := by
  induction acts using List.reverseRecOn with
  | nil => exact ⟨⟨by decide, by decide, by decide⟩, rfl⟩
  | append_singleton acts a ih =>
    have hpre : acts <+: acts ++ [a] := List.prefix_append acts [a]
    obtain ⟨hs, hl⟩ := ih fun pre b h ↦ hroom pre b (h.trans hpre)
    rw [run_concat]
    exact hs.step_of_room hl (hroom acts a (List.prefix_refl _))

/-- A run returns the characters in the order in which they come in and keeps the others, exactly
when there is a place left in the ring behind the last character of every burst. -/
theorem lossless_iff_room (acts : List Act) :
    (∀ pre, pre <+: acts → (run pre).Lossless) ↔
      ∀ pre a, pre ++ [a] <+: acts →
        (run pre).cons.pending.length + a.accepts.length < consBufSize := by
  simp only [Cons.length_pending]
  constructor
  · intro hall
    -- up to the first burst without room the run is sound
    have hboth : ∀ pre, pre <+: acts → (run pre).Sound := by
      intro pre
      induction pre using List.reverseRecOn with
      | nil => exact fun _ ↦ ⟨by decide, by decide, by decide⟩
      | append_singleton pre a ih =>
        intro hpre
        have hpre' : pre <+: acts := (List.prefix_append pre [a]).trans hpre
        have hs := ih hpre'
        have hnext := hall _ hpre
        rw [run_concat] at hnext ⊢
        exact (hs.step_of_room (hall pre hpre') (hs.room_of_step (hall pre hpre') hnext)).1
    intro pre a hpre
    have hpre' : pre <+: acts := (List.prefix_append pre [a]).trans hpre
    have hnext := hall _ hpre
    rw [run_concat] at hnext
    exact (hboth pre hpre').room_of_step (hall pre hpre') hnext
  · intro hroom pre hpre
    exact (run_sound fun pre' a h ↦ hroom pre' a (h.trans hpre)).2

/-- A burst that fills the ring. -/
def fullBurst : List Act := [.intr (List.replicate consBufSize 1)]

/-- Behind a burst that fills it the ring looks empty, and all its characters are lost. -/
theorem fullBurst_loses : ¬∀ pre, pre <+: fullBurst → (run pre).Lossless := by
  intro hall
  have hstart : (run []).Sound := ⟨by decide, by decide, by decide⟩
  have hlast := hall fullBurst (List.prefix_refl _)
  have hroom := hstart.room_of_step (a := .intr (List.replicate consBufSize 1)) rfl hlast
  have hlen : (nonzero (List.replicate consBufSize 1)).length = consBufSize := by
    rw [nonzero, List.filter_replicate_of_pos (by decide), List.length_replicate]
  rw [Act.accepts, hlen] at hroom
  omega

end Ucore.Console
