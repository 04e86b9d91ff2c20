/-
  DotCom.Proofs.Machine.Printing — when printing a string ends. The loop of the operating system has no bound: it
  goes on from `dx`, round the segment, to the first sentinel. Here it is stated as such (`Prints`), and so are a
  step and a run that print with it (`Machine.Acts`, `Machine.Finishes`); the bounded search of the machine gives
  the same wherever the loop ends, and says so where it does not.

  - `exists_sentinelAt`: the cyclic distance to a sentinel is a bound for the loop.
  - `prints_iff`: what the loop prints.
  - `Machine.acts_iff`, `Machine.finishes_iff`: steps and runs.
  - `printing_ends`: the loop and the runs of all images.
-/

import DotCom.Proofs.Machine.Effects
import Mathlib.Order.Nat

namespace DotCom

/-! ## The loop -/

/-- The first sentinel from an address on is `n` bytes away, counted round the segment. -/
structure Memory.SentinelAt (mem : Memory) (addr : UInt16) (n : Nat) : Prop where
  there : mem.read (addr + UInt16.ofNat n) = DosFunction.sentinel
  before : ∀ k < n, mem.read (addr + UInt16.ofNat k) ≠ DosFunction.sentinel

namespace Memory

variable {mem : Memory} {addr : UInt16} {n n' : Nat}

theorem sentinelAt_zero : mem.SentinelAt addr 0 ↔ mem.read addr = DosFunction.sentinel := by
  have here : addr + UInt16.ofNat 0 = addr := UInt16.add_zero addr
  constructor
  · intro h
    rw [← here]
    exact h.there
  · intro h
    exact ⟨by rw [here, h], fun k hk => absurd hk (Nat.not_lt_zero k)⟩

theorem sentinelAt_succ :
    mem.SentinelAt addr (n + 1) ↔ mem.read addr ≠ DosFunction.sentinel ∧ mem.SentinelAt (addr + 1) n := by
  constructor
  · intro h
    refine ⟨?_, ?_, fun k hk => ?_⟩
    · have first := h.before 0 (Nat.succ_pos n)
      rwa [show addr + UInt16.ofNat 0 = addr from UInt16.add_zero addr] at first
    · rw [← add_ofNat_succ]
      exact h.there
    · rw [← add_ofNat_succ]
      exact h.before (k + 1) (Nat.succ_lt_succ hk)
  · rintro ⟨first, there, before⟩
    refine ⟨by rw [add_ofNat_succ, there], fun k hk => ?_⟩
    cases k with
    | zero => rwa [show addr + UInt16.ofNat 0 = addr from UInt16.add_zero addr]
    | succ k =>
      rw [add_ofNat_succ]
      exact before k (Nat.lt_of_succ_lt_succ hk)

theorem SentinelAt.unique (h : mem.SentinelAt addr n) (h' : mem.SentinelAt addr n') : n = n' := by
  rcases Nat.lt_trichotomy n n' with lt | eq | gt
  · exact absurd h.there (h'.before n lt)
  · exact eq
  · exact absurd h'.there (h.before n' gt)

/-- The cyclic distance to any sentinel bounds the distance to the first. -/
theorem exists_sentinelAt (addr : UInt16) (h : ∃ a, mem.read a = DosFunction.sentinel) :
    ∃ n ≤ 65535, mem.SentinelAt addr n := by
  obtain ⟨a, ha⟩ := h
  have distance : mem.read (addr + UInt16.ofNat (a - addr).toNat) = DosFunction.sentinel := by
    rw [UInt16.ofNat_toNat, UInt16.add_comm, UInt16.sub_add_cancel, ha]
  have met : ∃ n, mem.read (addr + UInt16.ofNat n) = DosFunction.sentinel := ⟨_, distance⟩
  refine ⟨Nat.find met, ?_, Nat.find_spec met, fun k hk => Nat.find_min met hk⟩
  have nearer := Nat.find_min' met distance
  have bound := (a - addr).toNat_lt
  omega

theorem SentinelAt.le (h : mem.SentinelAt addr n) : n ≤ 65535 := by
  obtain ⟨n', le, h'⟩ := exists_sentinelAt addr ⟨_, h.there⟩
  exact h.unique h' ▸ le

end Memory

/-- Printing a string from an address, behind what is printed so far: byte after byte, until a sentinel is met. -/
inductive Prints (mem : Memory) : UInt16 → Array UInt8 → Array UInt8 → Prop
  | stop {addr : UInt16} {out : Array UInt8} : mem.read addr = DosFunction.sentinel → Prints mem addr out out
  | lap {addr : UInt16} {out out' : Array UInt8} : mem.read addr ≠ DosFunction.sentinel →
      Prints mem (addr + 1) (out.push (mem.read addr)) out' → Prints mem addr out out'

section

variable {mem : Memory} {addr : UInt16} {out out' : Array UInt8}

theorem append_bytesFrom_succ (mem : Memory) (addr : UInt16) (out : Array UInt8) (n : Nat) :
    out ++ (mem.bytesFrom addr (n + 1)).toArray = out.push (mem.read addr) ++ (mem.bytesFrom (addr + 1) n).toArray := by
  rw [mem.bytesFrom_succ]
  simp

theorem prints_iff :
    Prints mem addr out out' ↔ ∃ n, mem.SentinelAt addr n ∧ out' = out ++ (mem.bytesFrom addr n).toArray := by
  constructor
  · intro h
    induction h with
    | stop here => exact ⟨0, Memory.sentinelAt_zero.2 here, Array.append_empty.symm⟩
    | lap other _ ih =>
      obtain ⟨n, first, printed⟩ := ih
      exact ⟨n + 1, Memory.sentinelAt_succ.2 ⟨other, first⟩, by rw [printed, append_bytesFrom_succ]⟩
  · rintro ⟨n, first, rfl⟩
    induction n generalizing addr out with
    | zero =>
      have printed : out ++ (mem.bytesFrom addr 0).toArray = out := Array.append_empty
      rw [printed]
      exact .stop (Memory.sentinelAt_zero.1 first)
    | succ n ih =>
      obtain ⟨other, first⟩ := Memory.sentinelAt_succ.1 first
      rw [append_bytesFrom_succ]
      exact .lap other (ih first)

/-- The loop ends if there is a sentinel anywhere in the segment, and not otherwise. -/
theorem prints_ends_iff : (∃ out', Prints mem addr out out') ↔ ∃ a, mem.read a = DosFunction.sentinel := by
  constructor
  · rintro ⟨out', prints⟩
    obtain ⟨n, first, -⟩ := prints_iff.1 prints
    exact ⟨_, first.there⟩
  · intro h
    obtain ⟨n, -, first⟩ := Memory.exists_sentinelAt addr h
    exact ⟨_, prints_iff.2 ⟨n, first, rfl⟩⟩

end

/-! ## Calls of the operating system -/

namespace Machine

/-- The search within `n` bytes finds a sentinel that is less than `n` bytes away. -/
theorem printed_eq_some {mem : Memory} {addr : UInt16} {acc : Array UInt8} {k n : Nat} (first : mem.SentinelAt addr k)
    (near : k < n) : printed mem n addr acc = some (acc ++ (mem.bytesFrom addr k).toArray) := by
  induction n generalizing k addr acc with
  | zero => omega
  | succ n ih =>
    rw [printed]
    cases k with
    | zero =>
      rw [if_pos (Memory.sentinelAt_zero.1 first)]
      exact congrArg some Array.append_empty.symm
    | succ k =>
      obtain ⟨other, first⟩ := Memory.sentinelAt_succ.1 first
      rw [if_neg other, append_bytesFrom_succ]
      exact ih first (Nat.lt_of_succ_lt_succ near)

theorem printed_eq_none {mem : Memory} (h : ∀ a, mem.read a ≠ DosFunction.sentinel) (n : Nat) (addr : UInt16)
    (acc : Array UInt8) : printed mem n addr acc = none := by
  have absent : DosFunction.sentinel ∉ mem.bytesFrom addr n := by
    rw [Memory.bytesFrom, List.mem_map]
    rintro ⟨k, -, met⟩
    exact h _ met
  rw [printed_eq, if_neg absent]

variable {m m' : Machine} {n : Nat} {s : Step} {ending : Ending}

theorem dos_of_prints (selected : Word.high m.regs.ax = DosFunction.printString.number) {out : Array UInt8}
    (h : Prints m.memory m.regs.dx m.output out) : m.dos = .running { m with output := out } := by
  obtain ⟨k, first, rfl⟩ := prints_iff.1 h
  rw [dos, if_pos selected, printed_eq_some first (Nat.lt_succ_of_le first.le)]
  simp

theorem dos_eq_endless_iff (selected : Word.high m.regs.ax = DosFunction.printString.number) :
    m.dos = .endless ↔ ∀ a, m.memory.read a ≠ DosFunction.sentinel := by
  constructor
  · intro endless a ha
    obtain ⟨out, prints⟩ := prints_ends_iff.2 ⟨a, ha⟩
    rw [dos_of_prints selected prints] at endless
    cases endless
  · intro none
    rw [dos, if_pos selected, printed_eq_none none]

/-! ## Steps -/

/-- The next step is a call that prints a string, and `next` is the address behind it. -/
def Printing (m : Machine) (next : UInt16) : Prop :=
  m.memory.decode m.ip = .ok (.dos, next) ∧ Word.high m.regs.ax = DosFunction.printString.number

/-- What a step ends with, if it ends: strings are printed by the loop, and all else is as the machine does it. -/
inductive Acts (m : Machine) : Step → Prop
  | print {next : UInt16} {out : Array UInt8} : m.Printing next → Prints m.memory m.regs.dx m.output out →
      Acts m (.running { m with ip := next, output := out })
  | other : (∀ next, ¬ m.Printing next) → Acts m m.step

theorem step_of_printing {next : UInt16} (h : m.Printing next) : m.step = { m with ip := next }.dos := by
  rw [step, h.1]
  rfl

theorem step_of_prints {next : UInt16} {out : Array UInt8} (h : m.Printing next)
    (prints : Prints m.memory m.regs.dx m.output out) : m.step = .running { m with ip := next, output := out } := by
  rw [step_of_printing h]
  exact dos_of_prints (m := { m with ip := next }) h.2 prints

theorem divide_ne_endless (divisor addr : UInt16) : m.divide divisor addr ≠ .endless := by
  intro h
  unfold divide at h
  dsimp only at h
  repeat' split at h
  all_goals cases h

theorem step_eq_endless_iff :
    m.step = .endless ↔ (∃ next, m.Printing next) ∧ ∀ a, m.memory.read a ≠ DosFunction.sentinel := by
  constructor
  · intro h
    unfold step at h
    split at h
    · cases h
    · rename_i op next decoded
      cases op with
      | dos =>
        have endless : { m with ip := next }.dos = .endless := h
        by_cases selected : Word.high m.regs.ax = DosFunction.printString.number
        · exact ⟨⟨next, decoded, selected⟩, (dos_eq_endless_iff (m := { m with ip := next }) selected).1 endless⟩
        · rw [dos, if_neg selected] at endless
          split at endless <;> cases endless
      | divide divisor => exact absurd h (divide_ne_endless _ _)
      | move | moveHigh | push | pop | call | jump | arith | multiply | widen | jumpIf | jumpBy | ret => cases h
  · rintro ⟨⟨next, printing⟩, none⟩
    rw [step_of_printing printing]
    exact (dos_eq_endless_iff (m := { m with ip := next }) printing.2).2 none

theorem acts_iff : m.Acts s ↔ m.step = s ∧ s ≠ .endless := by
  constructor
  · intro h
    cases h with
    | print printing prints => exact ⟨step_of_prints printing prints, by simp⟩
    | other quiet => exact ⟨rfl, fun endless => (step_eq_endless_iff.1 endless).1.elim quiet⟩
  · rintro ⟨rfl, ends⟩
    by_cases printing : ∃ next, m.Printing next
    -- The bounded search has found a sentinel, so the loop ends.
    · obtain ⟨next, printing⟩ := printing
      have met : ∃ a, m.memory.read a = DosFunction.sentinel := by
        by_contra none
        exact ends (step_eq_endless_iff.2 ⟨⟨next, printing⟩, fun a ha => none ⟨a, ha⟩⟩)
      obtain ⟨out, prints⟩ := prints_ends_iff.2 met
      rw [step_of_prints printing prints]
      exact .print printing prints
    · exact .other fun next h => printing ⟨next, h⟩

/-! ## Runs -/

/-- What a run of at most `n` steps ends with, if it ends. -/
inductive Finishes : Nat → Machine → Ending → Prop
  | limit {m : Machine} : Finishes 0 m (.faulted (.stepLimit stepLimit))
  | running {n : Nat} {m m' : Machine} {ending : Ending} : m.Acts (.running m') → Finishes n m' ending →
      Finishes (n + 1) m ending
  | exited {n : Nat} {m m' : Machine} {code : UInt8} : m.Acts (.exited code m') →
      Finishes (n + 1) m (.exited ⟨code, m'.output, m'.returns⟩)
  | faulted {n : Nat} {m : Machine} {f : Fault} : m.Acts (.faulted f) → Finishes (n + 1) m (.faulted f)

theorem finishes_iff : Finishes n m ending ↔ m.runFor n = ending ∧ ending ≠ .endless := by
  constructor
  -- One way by induction on how the run ends, the other on the steps that it may take.
  · intro h
    induction h with
    | limit => exact ⟨rfl, by simp⟩
    | running acts _ ih =>
      rw [runFor, (acts_iff.1 acts).1]
      exact ih
    | exited acts | faulted acts =>
      rw [runFor, (acts_iff.1 acts).1]
      exact ⟨rfl, by simp⟩
  · rintro ⟨rfl, ends⟩
    induction n generalizing m with
    | zero => exact .limit
    | succ n ih =>
      rw [runFor] at ends ⊢
      cases stepped : m.step with
      | running m' =>
        rw [stepped] at ends
        exact .running (acts_iff.2 ⟨stepped, by simp⟩) (ih ends)
      | exited code m' => exact .exited (acts_iff.2 ⟨stepped, by simp⟩)
      | faulted f => exact .faulted (acts_iff.2 ⟨stepped, by simp⟩)
      | endless =>
        rw [stepped] at ends
        exact absurd rfl ends

theorem runFor_eq_endless_iff : m.runFor n = .endless ↔ ∃ k < n, ∃ m', m.after k = some m' ∧ m'.step = .endless := by
  induction n generalizing m with
  | zero =>
    refine iff_of_false (fun h => by cases h) ?_
    rintro ⟨k, hk, -⟩
    exact Nat.not_lt_zero k hk
  | succ n ih =>
    rw [runFor]
    cases stepped : m.step with
    | running m' =>
      dsimp only
      rw [ih]
      constructor
      · rintro ⟨k, hk, last⟩
        exact ⟨k + 1, Nat.succ_lt_succ hk, by rwa [after_succ stepped]⟩
      · rintro ⟨k, hk, last, reached, endless⟩
        cases k with
        | zero =>
          cases reached
          cases stepped.symm.trans endless
        | succ k =>
          rw [after_succ stepped] at reached
          exact ⟨k, Nat.lt_of_succ_lt_succ hk, last, reached, endless⟩
    | endless => exact iff_of_true rfl ⟨0, Nat.succ_pos n, m, rfl, stepped⟩
    | exited code m' | faulted f =>
      refine iff_of_false (fun h => by cases h) ?_
      rintro ⟨k, -, last, reached, endless⟩
      cases k with
      | zero =>
        cases reached
        cases stepped.symm.trans endless
      | succ k =>
        rw [after, stepped] at reached
        cases reached

/-- What a run of an image ends with, if it ends. -/
inductive Terminates (image : Array UInt8) : Ending → Prop
  | tooLarge : 65536 < 0x100 + image.size → Terminates image (.faulted .imageTooLarge)
  | loaded {ending : Ending} :
      0x100 + image.size ≤ 65536 → Finishes stepLimit (load image) ending → Terminates image ending

/-- The states in which a run of an image takes a step. -/
def Executes (image : Array UInt8) (m : Machine) : Prop :=
  0x100 + image.size ≤ 65536 ∧ ∃ k < stepLimit, (load image).after k = some m

theorem terminates_iff {image : Array UInt8} : Terminates image ending ↔ run image = ending ∧ ending ≠ .endless := by
  rw [run]
  constructor
  · intro h
    cases h with
    | tooLarge large => exact ⟨if_neg (Nat.not_le.2 large), by simp⟩
    | loaded fits finishes =>
      rw [if_pos fits]
      exact finishes_iff.1 finishes
  · rintro ⟨rfl, ends⟩
    by_cases fits : 0x100 + image.size ≤ 65536
    · rw [if_pos fits] at ends ⊢
      exact .loaded fits (finishes_iff.2 ⟨rfl, ends⟩)
    · rw [if_neg fits]
      exact .tooLarge (Nat.lt_of_not_le fits)

theorem run_eq_endless_iff {image : Array UInt8} :
    run image = .endless ↔ ∃ m, Executes image m ∧ (∃ next, m.Printing next) ∧
    ∀ a, m.memory.read a ≠ DosFunction.sentinel := by
  rw [run]
  by_cases fits : 0x100 + image.size ≤ 65536
  · rw [if_pos fits, runFor_eq_endless_iff]
    constructor
    · rintro ⟨k, hk, m, reached, endless⟩
      exact ⟨m, ⟨fits, k, hk, reached⟩, step_eq_endless_iff.1 endless⟩
    · rintro ⟨m, ⟨-, k, hk, reached⟩, endless⟩
      exact ⟨k, hk, m, reached, step_eq_endless_iff.2 endless⟩
  · rw [if_neg fits]
    refine iff_of_false (fun h => by cases h) ?_
    rintro ⟨m, ⟨inside, -⟩, -⟩
    exact fits inside

end Machine

/-- Printing a string ends exactly when the segment holds a sentinel. It then prints the bytes from `dx` up to the
    first one, counted round the segment and at most 65535 of them, and changes nothing else; and where it does not
    end, the machine says so. Hence a run of an image ends, as the machine says, exactly when the segment holds a
    sentinel at every call that prints a string. -/
theorem printing_ends :
    (∀ m : Machine, Word.high m.regs.ax = DosFunction.printString.number →
      ((∃ out, Prints m.memory m.regs.dx m.output out) ↔ ∃ a, m.memory.read a = DosFunction.sentinel) ∧
      (∀ out, Prints m.memory m.regs.dx m.output out → m.dos = .running { m with output := out } ∧
        ∃ n ≤ 65535, m.memory.SentinelAt m.regs.dx n ∧ out = m.output ++ (m.memory.bytesFrom m.regs.dx n).toArray) ∧
      (m.dos = .endless ↔ ¬ ∃ out, Prints m.memory m.regs.dx m.output out)) ∧
    ∀ image, (∀ ending, Machine.Terminates image ending ↔ Machine.run image = ending ∧ ending ≠ .endless) ∧
      ((∃ ending, Machine.Terminates image ending) ↔
        ∀ m next, Machine.Executes image m → m.Printing next → ∃ a, m.memory.read a = DosFunction.sentinel) := by
  refine ⟨fun m selected => ⟨prints_ends_iff, fun out prints => ⟨Machine.dos_of_prints selected prints, ?_⟩, ?_⟩,
    fun image => ⟨fun ending => Machine.terminates_iff, ?_⟩⟩
  · obtain ⟨n, first, printed⟩ := prints_iff.1 prints
    exact ⟨n, first.le, first, printed⟩
  · rw [Machine.dos_eq_endless_iff selected, prints_ends_iff, not_exists]
  · have ends : (∃ ending, Machine.Terminates image ending) ↔ ¬ Machine.run image = .endless := by
      simp only [Machine.terminates_iff, exists_eq_left', ne_eq]
    rw [ends, Machine.run_eq_endless_iff]
    constructor
    · intro none m next executes printing
      by_contra absent
      exact none ⟨m, executes, ⟨next, printing⟩, not_exists.1 absent⟩
    · rintro met ⟨m, executes, ⟨next, printing⟩, absent⟩
      obtain ⟨a, ha⟩ := met m next executes printing
      exact absent a ha

/-- A string that is printed round the end of the segment, with its sentinel at the first address; and an image
    that prints a string and holds no sentinel. -/
theorem printing_ends_round_segment :
    (∃ m : Machine, Word.high m.regs.ax = DosFunction.printString.number ∧ m.regs.dx = 0xffff ∧
      m.memory.read 0 = DosFunction.sentinel ∧ ∃ out, Prints m.memory m.regs.dx m.output out) ∧
    ¬ ∃ ending, Machine.Terminates #[0xb4, 0x09, 0xcd, 0x21] ending := by
  constructor
  · have met : (Memory.ofBytes 0 #[0x24]).read 0 = DosFunction.sentinel := by
      rw [Memory.read_ofBytes]
      rfl
    generalize Memory.ofBytes 0 #[0x24] = memory at met
    let m : Machine := { memory := memory, regs := { ax := 0x0900, dx := 0xffff }, ip := 0x100 }
    have selected : Word.high m.regs.ax = DosFunction.printString.number := show Word.high 0x0900 = _ by decide
    exact ⟨m, selected, rfl, met, (printing_ends.1 m selected).1.2 ⟨0, met⟩⟩
  · intro ends
    have absent : ∀ a, (Memory.ofBytes 0x100 #[0xb4, 0x09, 0xcd, 0x21]).read a ≠ DosFunction.sentinel := by
      intro a
      rw [Memory.read_ofBytes]
      split
      · rcases a.toNat - 0x100 with _ | _ | _ | _ | k
        · decide
        · decide
        · decide
        · decide
        · simp [DosFunction.sentinel]
      · decide
    have shows : (Memory.ofBytes 0x100 #[0xb4, 0x09, 0xcd, 0x21]).Shows 0x100 (Instr.dosCall .printString).encode := by
      refine ⟨?_, ?_, ?_, ?_, trivial⟩
      all_goals
        rw [Memory.read_ofBytes]
        decide
    obtain ⟨first, second⟩ := Memory.decode_dosCall shows
    let called : Machine := { Machine.load #[0xb4, 0x09, 0xcd,
      0x21] with regs := { ax := 0x0900, sp := 0xfffe }, ip := 0x102 }
    have stepped : (Machine.load #[0xb4, 0x09, 0xcd, 0x21]).step = .running called := by
      rw [Machine.step, show (Machine.load _).memory.decode (Machine.load _).ip = _ from first]
      rfl
    have reached : (Machine.load #[0xb4, 0x09, 0xcd, 0x21]).after 1 =
        some called := by rw [Machine.after_succ stepped]; rfl
    have executes : Machine.Executes #[0xb4, 0x09, 0xcd, 0x21] called := ⟨by decide, 1, by decide, reached⟩
    obtain ⟨a, ha⟩ := (printing_ends.2 _).2.1 ends called 0x104 executes ⟨second, by decide⟩
    exact absent a ha

end DotCom
