import Quorum.Config

/-!
Service discovery. A member that leads puts itself into service and everybody else out of it.
-/

namespace Quorum

/-- What a registry was told about an instance. -/
structure ServiceSignal where
  instanceId : String
  intoService : Bool
  deriving DecidableEq, Repr

/-- Tells a registry to take an instance into or out of service. -/
abbrev Registry := Member → (intoService : Bool) → Except RegistryError Unit

/-- Stands in where there is no service discovery, and refuses nothing. -/
def Registry.willing : Registry := fun _ _ => .ok ()

def ServiceSignal.text (s : ServiceSignal) : String :=
  "instance " ++ s.instanceId ++ " taken " ++ (if s.intoService then "into" else "out of") ++
    " service"

/-- Puts the member at position `me` into service and all others out of it, in their order, up to
the first refusal. Returns what the registry was told. -/
def takeIntoService (registry : Registry) (me : PeerId) :
    PeerId → List Member → List ServiceSignal × Except RegistryError Unit
  | _, [] => ([], .ok ())
  | i, m :: rest =>
    let signal : ServiceSignal := ⟨m.instanceId, i = me⟩
    match registry m (i = me) with
    | .error e => ([signal], .error e)
    | .ok () =>
      let (signals, outcome) := takeIntoService registry me (i + 1) rest
      (signal :: signals, outcome)

/-- Takes the member at position `me` out of service, if there is one. -/
def takeOutOfService (registry : Registry) (me : PeerId) (members : List Member) :
    List ServiceSignal × Except RegistryError Unit :=
  match members[me]? with
  | none => ([], .ok ())
  | some m => ([⟨m.instanceId, false⟩], registry m false)

end Quorum
