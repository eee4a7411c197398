/-
# The call stack

Calls under way, with an optional limit on their number.  The limit is checked when a call starts,
so a call that would pass it never runs; a stack carries the proof that it keeps to its limit.
-/
import ScriptMachine.Fault

namespace ScriptMachine

/-- Calls under way, outermost first, and the limit on how many there may be. -/
structure CallStack where
  frames : Array CallFrame
  limit : Option Nat
  within : ∀ n, limit = some n → frames.size ≤ n

namespace CallStack

/-- No call is under way. -/
def initial (limit : Option Nat) : CallStack := ⟨#[], limit, fun n _ => Nat.zero_le n⟩

/-- How many calls are under way. -/
def depth (s : CallStack) : Nat := s.frames.size

/-- Holds when no call is under way. -/
def isEmpty (s : CallStack) : Bool := s.frames.isEmpty

/-- Start a call.  A limit that leaves no room for it is a fault, and the stack stays as it is. -/
def push (s : CallStack) (frame : CallFrame) : Except FaultKind Unit × CallStack :=
  match hlimit : s.limit with
  | some limit =>
    if h : limit ≤ s.depth then (.error (.recursionLimit limit), s)
    else
      (.ok (), { s with
        frames := s.frames.push frame
        within := by
          intro n hn
          obtain rfl : limit = n := Option.some.inj (hlimit.symm.trans hn)
          simpa [depth, Nat.succ_le_iff] using h })
  | none =>
    (.ok (), { s with
      frames := s.frames.push frame
      within := by simp [hlimit] })

/-- End the innermost call. -/
def pop (s : CallStack) : CallStack where
  frames := s.frames.pop
  limit := s.limit
  within := by
    intro n hn
    have := s.within n hn
    rw [Array.size_pop]
    omega

/-- The calls under way, innermost first. -/
def capture (s : CallStack) : List CallFrame := s.frames.foldl (fun l f => f :: l) []

theorem capture_eq (s : CallStack) : s.capture = s.frames.toList.reverse := by
  simp [capture, ← Array.foldl_toList]

/-- What starting a call comes to: the frame is on top, or there was no room for it. -/
theorem push_cases (s : CallStack) (frame : CallFrame) :
    (∃ limit, s.limit = some limit ∧ limit ≤ s.depth ∧
      s.push frame = (.error (.recursionLimit limit), s)) ∨
    ∃ s', s.push frame = (.ok (), s') ∧ s'.frames = s.frames.push frame ∧ s'.limit = s.limit := by
  unfold push
  split
  · next limit hlimit =>
    split
    · next h => exact .inl ⟨limit, hlimit, h, rfl⟩
    · exact .inr ⟨_, rfl, rfl, rfl⟩
  · exact .inr ⟨_, rfl, rfl, rfl⟩

/-- Where the limit leaves room, a call starts. -/
theorem exists_push {s : CallStack} (hroom : ∀ limit, s.limit = some limit → s.depth < limit)
    (frame : CallFrame) :
    ∃ s', s.push frame = (.ok (), s') ∧ s'.depth = s.depth + 1 ∧ s'.limit = s.limit := by
  rcases s.push_cases frame with ⟨limit, hlimit, hle, -⟩ | ⟨s', hpush, hframes, hlimit⟩
  · exact absurd (hroom limit hlimit) (Nat.not_lt.2 hle)
  · exact ⟨s', hpush, by rw [depth, hframes, Array.size_push, depth], hlimit⟩

/-- A call that was started is on top, under the same limit. -/
theorem of_push_ok {s s' : CallStack} {frame : CallFrame} (h : s.push frame = (.ok (), s')) :
    s'.frames = s.frames.push frame ∧ s'.limit = s.limit := by
  rcases s.push_cases frame with ⟨limit, -, -, hpush⟩ | ⟨s₁, hpush, hparts⟩
  · rw [hpush] at h
    cases h
  · rw [hpush] at h
    obtain rfl : s₁ = s' := (Prod.mk.inj h).2
    exact hparts

/-- Ending a call that was started gives the stack from before. -/
theorem pop_of_push {s s' : CallStack} {frame : CallFrame} (h : s.push frame = (.ok (), s')) :
    s'.pop = s := by
  obtain ⟨hframes, hlimit⟩ := of_push_ok h
  obtain ⟨frames, limit, _⟩ := s
  simp only [pop, mk.injEq]
  exact ⟨by simp [hframes], hlimit⟩

/-- A backtrace has a line for each call under way. -/
theorem length_capture (s : CallStack) : s.capture.length = s.depth := by
  rw [capture_eq, List.length_reverse, Array.length_toList, depth]

end CallStack

end ScriptMachine
