/-!
Actions: sequences of effects on a state. An action that fails keeps the effects before the failure,
since an effect is never taken back.
-/

namespace RecordLedger

abbrev Action (ε σ : Type) := ExceptT ε (StateM σ)

namespace Action

def outcome (a : Action ε σ α) (s : σ) : Except ε α × σ := a.run.run s

def wrap (tell : ε → ε') (a : Action ε σ α) : Action ε' σ α :=
  ExceptT.mk fun s =>
    let (r, s) := a.outcome s
    (r.mapError tell, s)

end Action
end RecordLedger
