import ClassNotation.Error
import ClassNotation.Log.Basic

/-! Runs: computations that write a log and may fail. What was logged before a failure stays. -/
namespace ClassNotation

structure Run (α : Type) where
  log : Log
  result : Except Error α

namespace Run
variable {α β : Type}

def note (log : Log) : Run Unit := ⟨log, .ok ()⟩

def ofExcept (result : Except Error α) : Run α := ⟨[], result⟩

protected def bind (run : Run α) (next : α → Run β) : Run β :=
  match run.result with
  | .ok a => ⟨run.log ++ (next a).log, (next a).result⟩
  | .error e => ⟨run.log, .error e⟩

instance : Monad Run where
  pure a := ⟨[], .ok a⟩
  bind := Run.bind

/-- Runs inside a span that is left before `next` runs and closed after it. -/
def withinThen (span : Entry) (inside : Run α) (next : α → Run β) : Run β :=
  match inside.result with
  | .ok a => ⟨Log.within span inside.log (next a).log, (next a).result⟩
  | .error e => ⟨Log.within span inside.log, .error e⟩

def within (span : Entry) (inside : Run α) : Run α := ⟨Log.within span inside.log, inside.result⟩

end Run
end ClassNotation
