import Ikkat.Handlers

set_option autoImplicit false

namespace Ikkat

namespace Node

variable [LogCodec]

def standing (others : Nat → Option Handler) (id : Nat) (call : Call) (s : Server) (stage : Stage) : Node :=
  ⟨s, Function.update others id (some ⟨call, stage⟩)⟩

variable (others : Nat → Option Handler) (id : Nat) (call : Call)

variable (s : Server) (primes : FilePrimeSet) (entry : LogEntry)

end Node

end Ikkat
