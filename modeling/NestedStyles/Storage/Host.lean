/-!
# The host

What a machine tells a program: the time, and whether a process is alive. Every reading of the clock
is later than the one before it by a delay that the host decides, and a sleep takes at least its
length; so the clock never runs backwards, whatever the delays are.

The clock has 63 bits for its seconds. A program that reckons a moment beyond them crashes; here its
run goes on, but the host is marked (`Host.overrun`), and nothing that happens from then on really
does.
-/
namespace NestedStyles.Storage

/-- A clock in nanoseconds since the epoch, and the processes. -/
structure Host where
  now : Nat
  /-- How often the clock has been read. -/
  readings : Nat
  /-- The time that passes before each reading. -/
  delay : Nat → Nat
  /-- Whether a process is alive, where that is known. -/
  alive : Nat → Option Bool
  pid : Nat
  /-- Whether a moment has been reckoned that the clock cannot name. -/
  overrun : Bool := false

namespace Host

def second : Nat := 1000000000

def millisecond : Nat := 1000000

/-- The first moment that the clock cannot name. -/
def horizon : Nat := Nat.pow 2 63 * second

def read (h : Host) : Host :=
  { h with now := h.now + h.delay h.readings, readings := h.readings + 1 }

def sleep (h : Host) (length : Nat) : Host := { h.read with now := h.read.now + length }

/-- Reckons the moment `length` from now. -/
def after (h : Host) (length : Nat) : Nat × Host :=
  (h.now + length, { h with overrun := h.overrun || decide (horizon ≤ h.now + length) })

def seconds (h : Host) : Nat := h.now / second

/-- Whether the process `pid` is alive. Zero and numbers beyond 31 bits are no processes of their
own. -/
def isAlive? (h : Host) (pid : Nat) : Option Bool :=
  if pid = 0 ∨ Nat.pow 2 31 ≤ pid then none else h.alive pid

theorem overrun_after (h : Host) (length : Nat) :
    (h.after length).2.overrun = true ↔ h.overrun = true ∨ horizon ≤ h.now + length := by
  simp [after]

theorem now_le_read (h : Host) : h.now ≤ h.read.now := Nat.le_add_right _ _

theorem now_add_le_sleep (h : Host) (length : Nat) : h.now + length ≤ (h.sleep length).now :=
  Nat.add_le_add_right (now_le_read h) length

end Host
end NestedStyles.Storage
