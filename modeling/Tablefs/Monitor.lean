/-
The handshake of `Destroy` with the monitor thread.

`monitor_destroy` sets `stop_monitor_thread`, signals, and waits until the monitor thread
sets `flag_monitor_thread_finish`. The two threads share the flags, a mutex and a condition
variable; a schedule says which of them takes the next step, and when one that waits on the
condition variable wakes by itself.

With a monitor thread the handshake is sound and can always be completed, whatever the
schedule (`handshake_safe`, `handshake_completes`). But `Init` starts no such thread: its call
of `monitor_init` is commented out. `Destroy` then waits for ever, and neither the inode cache
is written back nor the counter stored (`destroy_cut_off`).
-/
import Tablefs.Reachable
import Tablefs.Lib.Run

set_option autoImplicit false

namespace Tablefs

/-! ## The two threads -/

/-- Where the thread of `TableFS` stands: in front of its next call, or of the next statement
of `Destroy`. -/
inductive MainPc
  | serving (ops : List Op)
  | locking
  | stopping
  | signalling
  | testing
  | waiting
  | waking
  | unlocking
  | unmounting
  | done

/-- The statement of `monitor_thread` that comes next. -/
inductive MonitorPc
  | locking
  | testing
  | working
  | waiting
  | waking
  | finishing
  | broadcasting
  | unlocking
  | exited
  deriving DecidableEq, Repr

inductive Thread
  | main
  | monitor
  deriving DecidableEq, Repr

/-- The threads, and what they share. -/
structure Process where
  world : World
  main : MainPc
  monitor : Option MonitorPc
  mtx_monitor : Option Thread
  stop_monitor_thread : Bool
  flag_monitor_thread_finish : Bool

/-- A thread takes a step, or wakes from the condition variable: by a timeout, or for no
reason. -/
inductive Schedule
  | runs (t : Thread)
  | wakes (t : Thread)
  deriving DecidableEq, Repr

namespace Process

/-- A step of the thread of `TableFS`. -/
def mainStep (s : Process) : Process :=
  match s.main with
  | .serving (op :: ops) => { s with world := s.world.next op, main := .serving ops }
  | .serving [] => { s with main := .locking }
  | .locking =>
      if s.mtx_monitor = none then { s with mtx_monitor := some .main, main := .stopping } else s
  | .stopping => { s with stop_monitor_thread := true, main := .signalling }
  | .signalling =>
      -- only the monitor thread can be waiting here
      { s with
        monitor := if s.monitor = some .waiting then some .waking else s.monitor
        main := .testing }
  | .testing =>
      if s.flag_monitor_thread_finish then { s with main := .unlocking }
      else { s with mtx_monitor := none, main := .waiting }
  | .waiting => s
  | .waking =>
      if s.mtx_monitor = none then { s with mtx_monitor := some .main, main := .testing } else s
  | .unlocking => { s with mtx_monitor := none, main := .unmounting }
  | .unmounting => { s with world := s.world.destroy, main := .done }
  | .done => s

/-- The thread of `TableFS` is woken if it waits. -/
def broadcast : MainPc → MainPc
  | .waiting => .waking
  | pc => pc

/-- A step of the monitor thread. Its `ret` is never assigned to after it is initialised, so
every round calls `do_monitor`, which changes nothing here. -/
def monitorStep (s : Process) : Process :=
  match s.monitor with
  | none => s
  | some .locking =>
      if s.mtx_monitor = none then
        { s with mtx_monitor := some .monitor, monitor := some .testing }
      else s
  | some .testing =>
      if s.stop_monitor_thread then { s with monitor := some .finishing }
      else { s with monitor := some .working }
  | some .working => { s with mtx_monitor := none, monitor := some .waiting }
  | some .waiting => s
  | some .waking =>
      if s.mtx_monitor = none then
        { s with mtx_monitor := some .monitor, monitor := some .testing }
      else s
  | some .finishing =>
      { s with flag_monitor_thread_finish := true, monitor := some .broadcasting }
  | some .broadcasting => { s with main := broadcast s.main, monitor := some .unlocking }
  | some .unlocking => { s with mtx_monitor := none, monitor := some .exited }
  | some .exited => s

/-- What happens next. -/
def step (s : Process) : Schedule → Process
  | .runs .main => s.mainStep
  | .runs .monitor => s.monitorStep
  | .wakes .main => { s with main := broadcast s.main }
  | .wakes .monitor =>
      { s with monitor := if s.monitor = some .waiting then some .waking else s.monitor }

/-- The state after a schedule. -/
abbrev run (s : Process) (schedule : List Schedule) : Process := Transition.run step s schedule

/-- `Init`, on what is durable, with the calls that come before `Destroy`. `started` says
whether it calls `monitor_init`, which starts the monitor thread; the flags are 0 either way. -/
def launch (started : Bool) (d : Durable) (cfg : MountConfig) (ops : List Op) : Process where
  world := mount d cfg
  main := .serving ops
  monitor := if started then some .locking else none
  mtx_monitor := none
  stop_monitor_thread := false
  flag_monitor_thread_finish := false

/-- `Init` as it is: the call of `monitor_init` is commented out. -/
def init (d : Durable) (cfg : MountConfig) (ops : List Op) : Process := launch false d cfg ops

/-- `Destroy` waits on the condition variable, and there is no monitor thread that has yet to
set the flag or to wake it up. -/
def CutOff (s : Process) : Prop :=
  s.main = .waiting ∧ ∀ pc, s.monitor = some pc → pc = .unlocking ∨ pc = .exited

/-- No schedule leads to a state where `Destroy` is cut off. -/
def NeverCutOff (s : Process) : Prop := ∀ schedule, ¬ (s.run schedule).CutOff

/-! ## The invariant -/

end Process

/-- The thread holds the mutex in front of this statement. -/
def MainPc.Holds : MainPc → Prop
  | .stopping | .signalling | .testing | .unlocking => True
  | _ => False

def MonitorPc.Holds : MonitorPc → Prop
  | .testing | .working | .finishing | .broadcasting | .unlocking => True
  | _ => False

/-- `Destroy` has told the monitor thread to stop. -/
def MainPc.Stopped : MainPc → Prop
  | .signalling | .testing | .waiting | .waking => True
  | _ => False

/-- The thread has set the flag. -/
def MonitorPc.Finished : MonitorPc → Prop
  | .broadcasting | .unlocking | .exited => True
  | _ => False

namespace Process

/-- The states of a run with a monitor thread, which stands at `pc`. -/
structure Sound (s : Process) (pc : MonitorPc) : Prop where
  running : s.monitor = some pc
  main_holds : s.main.Holds ↔ s.mtx_monitor = some .main
  monitor_holds : pc.Holds ↔ s.mtx_monitor = some .monitor
  flag : s.flag_monitor_thread_finish = true ↔ pc.Finished
  awake : s.main = .waiting → pc ≠ .unlocking ∧ pc ≠ .exited
  stopped : s.main.Stopped → s.stop_monitor_thread = true

theorem launch_sound (d : Durable) (cfg : MountConfig) (ops : List Op) :
    (launch true d cfg ops).Sound .locking where
  running := rfl
  main_holds := by simp [launch, MainPc.Holds]
  monitor_holds := by simp [launch, MonitorPc.Holds]
  flag := by simp [launch, MonitorPc.Finished]
  awake := by simp [launch]
  stopped := by simp [launch, MainPc.Stopped]

variable {s : Process} {pc : MonitorPc}

/-- The thread of `TableFS` goes on, and neither takes nor gives up the mutex. -/
theorem Sound.goes (h : s.Sound pc) {m : MainPc} (hm : m.Holds ↔ s.main.Holds)
    (hw : m ≠ .waiting) (w : World) {stop : Bool} (hstop : m.Stopped → stop = true) :
    { s with world := w, main := m, stop_monitor_thread := stop }.Sound pc where
  running := h.running
  main_holds := hm.trans h.main_holds
  monitor_holds := h.monitor_holds
  flag := h.flag
  awake := fun heq => absurd heq hw
  stopped := hstop

theorem Sound.takes (h : s.Sound pc) (hfree : s.mtx_monitor = none) {m : MainPc} (hm : m.Holds)
    (hw : m ≠ .waiting) (hstop : m.Stopped → s.main.Stopped) :
    { s with mtx_monitor := some .main, main := m }.Sound pc where
  running := h.running
  main_holds := iff_of_true hm rfl
  monitor_holds := by
    rw [h.monitor_holds, hfree]
    simp
  flag := h.flag
  awake := fun heq => absurd heq hw
  stopped := fun hm => h.stopped (hstop hm)

/-- What gives up the mutex has it, so the monitor thread is not between its lock and its
unlock. -/
theorem Sound.gives (h : s.Sound pc) (hheld : s.main.Holds) {m : MainPc} (hm : ¬ m.Holds)
    (hw : m = .waiting → s.flag_monitor_thread_finish = false)
    (hstop : m.Stopped → s.main.Stopped) :
    { s with mtx_monitor := none, main := m }.Sound pc where
  running := h.running
  main_holds := iff_of_false hm (by simp)
  monitor_holds := by
    rw [h.monitor_holds, h.main_holds.mp hheld]
    simp
  flag := h.flag
  awake := by
    intro heq
    -- the flag is not set, so the thread has not come so far
    have hnot : ¬ pc.Finished := by
      rw [← h.flag, hw heq]
      simp
    constructor
    · rintro rfl
      exact hnot trivial
    · rintro rfl
      exact hnot trivial
  stopped := fun hm => h.stopped (hstop hm)

/-- The monitor thread is woken if it waits. -/
theorem Sound.wakes_monitor (h : s.Sound pc) :
    ∃ pc', (s.step (.wakes .monitor)).Sound pc' := by
  unfold Process.step
  dsimp only
  by_cases hw : s.monitor = some .waiting
  · obtain rfl : pc = .waiting := Option.some.inj (h.running.symm.trans hw)
    rw [if_pos hw]
    refine ⟨.waking, rfl, h.main_holds, h.monitor_holds, h.flag, ?_, h.stopped⟩
    intro _
    exact ⟨by simp, by simp⟩
  · rw [if_neg hw]
    exact ⟨pc, h⟩

theorem broadcast_ne (m : MainPc) : broadcast m ≠ .waiting := by
  cases m <;> simp [broadcast]

theorem broadcast_holds (m : MainPc) : (broadcast m).Holds ↔ m.Holds := by
  cases m <;> rfl

theorem broadcast_stopped (m : MainPc) : (broadcast m).Stopped ↔ m.Stopped := by
  cases m <;> rfl

theorem Sound.wakes_main (h : s.Sound pc) : { s with main := broadcast s.main }.Sound pc :=
  h.goes (broadcast_holds s.main) (broadcast_ne s.main) s.world fun hm =>
    h.stopped ((broadcast_stopped s.main).mp hm)

theorem Sound.mainStep (h : s.Sound pc) : ∃ pc', s.mainStep.Sound pc' := by
  unfold Process.mainStep
  split
  · rename_i hmain
    exact ⟨pc, h.goes (by rw [hmain]; rfl) (by simp) _ False.elim⟩
  · rename_i hmain
    exact ⟨pc, h.goes (by rw [hmain]; rfl) (by simp) _ False.elim⟩
  · split
    · rename_i hfree
      exact ⟨pc, h.takes hfree trivial (by simp) False.elim⟩
    · exact ⟨pc, h⟩
  · rename_i hmain
    exact ⟨pc, h.goes (by rw [hmain]; rfl) (by simp) _ fun _ => rfl⟩
  · rename_i hmain
    have hstop := h.stopped (by rw [hmain]; trivial)
    have hnext : { s with main := .testing }.Sound pc :=
      h.goes (by rw [hmain]; rfl) (by simp) s.world fun _ => hstop
    exact hnext.wakes_monitor
  · rename_i hmain
    split
    · exact ⟨pc, h.goes (by rw [hmain]; rfl) (by simp) _ False.elim⟩
    · rename_i hflag
      exact ⟨pc, h.gives (by rw [hmain]; trivial) id
        (fun _ => Bool.eq_false_iff.mpr hflag) fun _ => by rw [hmain]; trivial⟩
  · exact ⟨pc, h⟩
  · split
    · rename_i hmain hfree
      exact ⟨pc, h.takes hfree trivial (by simp) fun _ => by rw [hmain]; trivial⟩
    · exact ⟨pc, h⟩
  · rename_i hmain
    exact ⟨pc, h.gives (by rw [hmain]; trivial) id (by simp) False.elim⟩
  · rename_i hmain
    exact ⟨pc, h.goes (by rw [hmain]; rfl) (by simp) _ False.elim⟩
  · exact ⟨pc, h⟩

/-- The monitor thread goes on, and neither takes nor gives up the mutex. -/
theorem Sound.monitor_goes (h : s.Sound pc) (pc' : MonitorPc) (hpc : pc'.Holds ↔ pc.Holds)
    {flag : Bool} (hflag : flag = true ↔ pc'.Finished)
    (hw : pc' ≠ .unlocking ∧ pc' ≠ .exited) :
    { s with monitor := some pc', flag_monitor_thread_finish := flag }.Sound pc' where
  running := rfl
  main_holds := h.main_holds
  monitor_holds := hpc.trans h.monitor_holds
  flag := hflag
  awake := fun _ => hw
  stopped := h.stopped

theorem Sound.monitor_takes (h : s.Sound pc) (hfree : s.mtx_monitor = none)
    (hflag : ¬ pc.Finished) :
    { s with mtx_monitor := some .monitor, monitor := some .testing }.Sound .testing where
  running := rfl
  main_holds := by
    rw [h.main_holds, hfree]
    simp
  monitor_holds := iff_of_true trivial rfl
  flag := by
    rw [h.flag]
    exact iff_of_false hflag id
  awake := fun _ => ⟨by simp, by simp⟩
  stopped := h.stopped

theorem Sound.monitor_gives (h : s.Sound pc) (hheld : pc.Holds) (pc' : MonitorPc)
    (hpc : ¬ pc'.Holds) (hflag : pc'.Finished ↔ pc.Finished)
    (hw : s.main = .waiting → pc' ≠ .unlocking ∧ pc' ≠ .exited) :
    { s with mtx_monitor := none, monitor := some pc' }.Sound pc' where
  running := rfl
  main_holds := by
    rw [h.main_holds, h.monitor_holds.mp hheld]
    simp
  monitor_holds := iff_of_false hpc (by simp)
  flag := h.flag.trans hflag.symm
  awake := hw
  stopped := h.stopped

theorem Sound.monitorStep (h : s.Sound pc) : ∃ pc', s.monitorStep.Sound pc' := by
  have hrun := h.running
  unfold Process.monitorStep
  rw [hrun]
  cases pc with
  | locking =>
      dsimp only
      split
      · rename_i hfree
        exact ⟨.testing, h.monitor_takes hfree id⟩
      · exact ⟨.locking, h⟩
  | testing =>
      dsimp only
      split
      · exact ⟨.finishing, h.monitor_goes .finishing Iff.rfl h.flag (by simp)⟩
      · exact ⟨.working, h.monitor_goes .working Iff.rfl h.flag (by simp)⟩
  | working => exact ⟨.waiting, h.monitor_gives trivial .waiting id Iff.rfl fun _ => by simp⟩
  | waiting => exact ⟨.waiting, h⟩
  | waking =>
      dsimp only
      split
      · rename_i hfree
        exact ⟨.testing, h.monitor_takes hfree id⟩
      · exact ⟨.waking, h⟩
  | finishing =>
      exact ⟨.broadcasting,
        h.monitor_goes .broadcasting Iff.rfl (iff_of_true rfl trivial) (by simp)⟩
  | broadcasting =>
      -- after the broadcast the thread of `TableFS` does not wait
      have hwoken := h.wakes_main
      refine ⟨.unlocking, rfl, hwoken.main_holds, h.monitor_holds, h.flag, ?_, hwoken.stopped⟩
      intro heq
      exact absurd heq (broadcast_ne s.main)
  | unlocking =>
      refine ⟨.exited, h.monitor_gives trivial .exited id Iff.rfl ?_⟩
      intro heq
      exact absurd rfl (h.awake heq).1
  | exited => exact ⟨.exited, h⟩

theorem Sound.step (h : s.Sound pc) (e : Schedule) : ∃ pc', (s.step e).Sound pc' := by
  cases e with
  | runs t =>
      cases t with
      | main => exact h.mainStep
      | monitor => exact h.monitorStep
  | wakes t =>
      cases t with
      | main => exact ⟨pc, h.wakes_main⟩
      | monitor => exact h.wakes_monitor

theorem Sound.run (h : s.Sound pc) (schedule : List Schedule) :
    ∃ pc', (s.run schedule).Sound pc' := by
  refine Transition.run_invariant (P := fun s => ∃ pc, Sound s pc) (C := fun _ _ => True)
    ?_ ⟨pc, h⟩ (Transition.meets_of_forall (fun _ _ => trivial) s)
  rintro s e ⟨_, h⟩ _
  exact h.step e

theorem Sound.not_cutOff (h : s.Sound pc) : ¬ s.CutOff := by
  rintro ⟨hw, hpc⟩
  obtain ⟨hu, he⟩ := h.awake hw
  rcases hpc pc h.running with rfl | rfl
  · exact hu rfl
  · exact he rfl

/-- With a monitor thread `Destroy` is never cut off. -/
theorem handshake_safe (d : Durable) (cfg : MountConfig) (ops : List Op) :
    (launch true d cfg ops).NeverCutOff := by
  intro schedule
  obtain ⟨_, h⟩ := (launch_sound d cfg ops).run schedule
  exact h.not_cutOff

/-! ## The handshake comes to its end -/

end Process

/-- How far the thread of `TableFS` is from its end, when the flag is set or not. -/
def MainPc.left (flag : Bool) : MainPc → ℕ
  | .serving ops => ops.length + 11
  | .locking => 10
  | .stopping => 9
  | .signalling => 8
  | .testing => if flag then 3 else 7
  | .waiting => 6
  | .waking => if flag then 4 else 8
  | .unlocking => 2
  | .unmounting => 1
  | .done => 0

/-- How far the monitor thread is from its end, when it is told to stop or not. -/
def MonitorPc.left (stop : Bool) : MonitorPc → ℕ
  | .testing => if stop then 5 else 9
  | .working => 8
  | .waiting => 7
  | .locking | .waking => 6
  | .finishing => 4
  | .broadcasting => 3
  | .unlocking => 2
  | .exited => 1

namespace Process

/-- How far the two threads are from their ends. -/
def left (s : Process) : ℕ :=
  s.main.left s.flag_monitor_thread_finish +
    s.monitor.elim 0 (MonitorPc.left s.stop_monitor_thread)

variable {s : Process} {pc : MonitorPc}

/-- The monitor thread gets ahead while it has the mutex. -/
theorem Sound.monitor_ahead (h : s.Sound pc) (hpc : pc.Holds) : s.monitorStep.left < s.left := by
  have hrun := h.running
  have hflag := h.flag
  unfold Process.monitorStep left
  rw [hrun]
  cases pc with
  | testing =>
      by_cases hs : s.stop_monitor_thread = true <;> simp [hs, MonitorPc.left]
  | working => simp [MonitorPc.left]
  | finishing =>
      have hnot : s.flag_monitor_thread_finish = false := by
        rw [Bool.eq_false_iff]
        exact fun heq => hflag.mp heq
      rw [hnot]
      cases s.main <;> simp [MonitorPc.left, MainPc.left]
  | broadcasting =>
      rw [hflag.mpr trivial]
      cases s.main <;> simp [MonitorPc.left, MainPc.left, broadcast]
  | unlocking => simp [MonitorPc.left]
  | locking => exact hpc.elim
  | waiting => exact hpc.elim
  | waking => exact hpc.elim
  | exited => exact hpc.elim

/-- The thread of `TableFS` gets ahead unless it waits for the mutex or to be woken. -/
theorem main_ahead (hfree : s.main.Holds ∨ s.mtx_monitor = none) (hw : s.main ≠ .waiting)
    (hd : s.main ≠ .done) : s.mainStep.left < s.left := by
  unfold Process.mainStep
  split
  · rename_i hmain
    simp [left, hmain, MainPc.left]
  · rename_i hmain
    simp [left, hmain, MainPc.left]
  · rename_i hmain
    rw [if_pos (hfree.resolve_left (by rw [hmain]; exact id))]
    simp [left, hmain, MainPc.left]
  · rename_i hmain
    have hle : ∀ pc : MonitorPc, pc.left true ≤ pc.left s.stop_monitor_thread := by
      intro pc
      cases pc <;> cases s.stop_monitor_thread <;> simp [MonitorPc.left]
    cases hm : s.monitor with
    | none => simp [left, hmain, hm, MainPc.left]
    | some pc =>
        have := hle pc
        simp only [left, hmain, hm, MainPc.left, Option.elim_some]
        omega
  · rename_i hmain
    by_cases hm : s.monitor = some .waiting
    · cases s.flag_monitor_thread_finish <;>
        simp [left, hmain, hm, MainPc.left, MonitorPc.left]
    · cases s.flag_monitor_thread_finish <;> simp [left, hmain, hm, MainPc.left]
  · rename_i hmain
    split
    · rename_i hf
      simp [left, hmain, hf, MainPc.left]
    · rename_i hf
      simp [left, hmain, hf, MainPc.left]
  · rename_i hmain
    exact absurd hmain hw
  · rename_i hmain
    rw [if_pos (hfree.resolve_left (by rw [hmain]; exact id))]
    cases hf : s.flag_monitor_thread_finish <;> simp [left, hmain, hf, MainPc.left]
  · rename_i hmain
    simp [left, hmain, MainPc.left]
  · rename_i hmain
    simp [left, hmain, MainPc.left]
  · rename_i hmain
    exact absurd hmain hd

/-- As long as `Destroy` has not come to its end, some step leads towards it. -/
theorem Sound.ahead (h : s.Sound pc) (hd : s.main ≠ .done) : ∃ e, (s.step e).left < s.left := by
  by_cases hheld : pc.Holds
  · exact ⟨.runs .monitor, h.monitor_ahead hheld⟩
  have hfree : s.main.Holds ∨ s.mtx_monitor = none := by
    rw [h.main_holds]
    rw [h.monitor_holds] at hheld
    cases hm : s.mtx_monitor with
    | none => exact Or.inr rfl
    | some t =>
        cases t with
        | main => exact Or.inl rfl
        | monitor => exact absurd hm hheld
  by_cases hw : s.main = .waiting
  · -- the monitor thread has to go on
    have hnone : s.mtx_monitor = none := hfree.resolve_left (by rw [hw]; exact id)
    have hstop : s.stop_monitor_thread = true := h.stopped (by rw [hw]; trivial)
    obtain ⟨hu, he⟩ := h.awake hw
    have hrun := h.running
    cases pc with
    | locking =>
        refine ⟨.runs .monitor, ?_⟩
        simp [Process.step, Process.monitorStep, left, hrun, hnone, hstop, MonitorPc.left]
    | waiting =>
        refine ⟨.wakes .monitor, ?_⟩
        simp [Process.step, left, hrun, MonitorPc.left]
    | waking =>
        refine ⟨.runs .monitor, ?_⟩
        simp [Process.step, Process.monitorStep, left, hrun, hnone, hstop, MonitorPc.left]
    | testing => exact absurd trivial hheld
    | working => exact absurd trivial hheld
    | finishing => exact absurd trivial hheld
    | broadcasting => exact absurd trivial hheld
    | unlocking => exact absurd rfl hu
    | exited => exact absurd rfl he
  · exact ⟨.runs .main, main_ahead hfree hw hd⟩

/-- From every state of a run with a monitor thread `Destroy` can come to its end. -/
theorem Sound.completes (h : s.Sound pc) : ∃ schedule, (s.run schedule).main = .done := by
  -- by induction on how far the threads are from their ends
  induction hn : s.left using Nat.strong_induction_on generalizing s pc with
  | _ n ih =>
      by_cases hd : s.main = .done
      · exact ⟨[], hd⟩
      · obtain ⟨e, he⟩ := h.ahead hd
        obtain ⟨_, h'⟩ := h.step e
        obtain ⟨schedule, hend⟩ := ih _ (hn ▸ he) h' rfl
        exact ⟨e :: schedule, hend⟩

theorem handshake_completes (d : Durable) (cfg : MountConfig) (ops : List Op)
    (schedule : List Schedule) :
    ∃ more, ((launch true d cfg ops).run (schedule ++ more)).main = .done := by
  obtain ⟨_, h⟩ := (launch_sound d cfg ops).run schedule
  obtain ⟨more, hend⟩ := h.completes
  refine ⟨more, ?_⟩
  rw [run, Transition.run_append]
  exact hend

/-! ## Without a monitor thread -/

/-- The states of a run without a monitor thread. `Destroy` never leaves its loop. -/
structure Alone (s : Process) : Prop where
  monitor : s.monitor = none
  flag : s.flag_monitor_thread_finish = false
  mutex : s.mtx_monitor = none ∨ s.main.Holds
  before : s.main ≠ .unlocking ∧ s.main ≠ .unmounting ∧ s.main ≠ .done

theorem init_alone (d : Durable) (cfg : MountConfig) (ops : List Op) :
    (init d cfg ops).Alone where
  monitor := rfl
  flag := rfl
  mutex := Or.inl rfl
  before := by simp [init, launch]

theorem Alone.mainStep (h : s.Alone) : s.mainStep.Alone := by
  have hflag := h.flag
  have hbefore := h.before
  unfold Process.mainStep
  split
  · rename_i hmain
    exact ⟨h.monitor, hflag, Or.inl (h.mutex.resolve_right (by rw [hmain]; exact id)), by simp⟩
  · rename_i hmain
    exact ⟨h.monitor, hflag, Or.inl (h.mutex.resolve_right (by rw [hmain]; exact id)), by simp⟩
  · split
    · exact ⟨h.monitor, hflag, Or.inr trivial, by simp⟩
    · exact h
  · exact ⟨h.monitor, hflag, Or.inr trivial, by simp⟩
  · refine ⟨?_, hflag, Or.inr trivial, by simp⟩
    simp [h.monitor]
  · rw [if_neg (by simp [hflag])]
    exact ⟨h.monitor, hflag, Or.inl rfl, by simp⟩
  · exact h
  · split
    · exact ⟨h.monitor, hflag, Or.inr trivial, by simp⟩
    · exact h
  · rename_i hmain
    exact absurd hmain hbefore.1
  · rename_i hmain
    exact absurd hmain hbefore.2.1
  · rename_i hmain
    exact absurd hmain hbefore.2.2

theorem Alone.step (h : s.Alone) (e : Schedule) : (s.step e).Alone := by
  have hmon := h.monitor
  cases e with
  | runs t =>
      cases t with
      | main => exact h.mainStep
      | monitor =>
          rw [Process.step, Process.monitorStep, hmon]
          exact h
  | wakes t =>
      cases t with
      | main =>
          refine ⟨hmon, h.flag, h.mutex.imp_right (broadcast_holds s.main).mpr, ?_⟩
          have hbefore := h.before
          show broadcast s.main ≠ _ ∧ broadcast s.main ≠ _ ∧ broadcast s.main ≠ _
          cases hm : s.main <;> simp [hm, broadcast] at hbefore ⊢
      | monitor =>
          refine ⟨?_, h.flag, h.mutex, h.before⟩
          simp [Process.step, hmon]

theorem Alone.run (h : s.Alone) (schedule : List Schedule) : (s.run schedule).Alone :=
  Transition.run_invariant (P := Alone) (C := fun _ _ => True) (fun _ e h _ => h.step e) h
    (Transition.meets_of_forall (fun _ _ => trivial) s)

/-- Without a monitor thread the rest of `Destroy` is never reached: neither is the inode
cache written back nor the counter stored. -/
theorem destroy_never_ends (d : Durable) (cfg : MountConfig) (ops : List Op)
    (schedule : List Schedule) : ((init d cfg ops).run schedule).main ≠ .done :=
  ((init_alone d cfg ops).run schedule).before.2.2

/-- Without a monitor thread every run leads `Destroy` to wait. -/
theorem Alone.waits (h : s.Alone) : ∃ schedule, (s.run schedule).CutOff := by
  induction hn : s.left using Nat.strong_induction_on generalizing s with
  | _ n ih =>
      by_cases hw : s.main = .waiting
      · refine ⟨[], hw, ?_⟩
        intro pc hpc
        have hnone : s.monitor = none := h.monitor
        rw [Process.run, Transition.run_nil, hnone] at hpc
        cases hpc
      · have hlt := main_ahead h.mutex.symm hw h.before.2.2
        obtain ⟨schedule, hcut⟩ := ih _ (hn ▸ hlt) h.mainStep rfl
        exact ⟨.runs .main :: schedule, hcut⟩

/-- Whatever is mounted and whatever is called before, `Destroy` is cut off. -/
theorem destroy_cut_off (d : Durable) (cfg : MountConfig) (ops : List Op) :
    ¬ (init d cfg ops).NeverCutOff := by
  intro h
  obtain ⟨schedule, hcut⟩ := (init_alone d cfg ops).waits
  exact h schedule hcut

/-- `Destroy` right after `Init`. -/
theorem shutdown_blocks :
    ¬ ∀ (d : Durable) (cfg : MountConfig) (ops : List Op), (init d cfg ops).NeverCutOff := by
  intro h
  refine h Durable.empty plainConfig [] (List.replicate 5 (.runs .main)) ⟨rfl, ?_⟩
  intro pc hpc
  cases hpc

end Process

end Tablefs
