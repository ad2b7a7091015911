import RecordLedger.Action
import RecordLedger.Ledger.Error
import RecordLedger.Store.Call

/-! Actions of a ledger: sequences of calls on a backend. -/

namespace RecordLedger.Ledger

abbrev Action (σ : Type) := RecordLedger.Action Error σ

def call (b : Store.Backend σ) (c : Store.Call) : Action σ c.Answer :=
  Action.wrap .store (ExceptT.mk (b c))

def describe : String := "Ledger \x7b .. \x7d"

end RecordLedger.Ledger
