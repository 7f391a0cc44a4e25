import Quorum.Command

/-!
The store that committed commands are applied to, and how a command is routed to its operations.
-/

namespace Quorum

open Json (Dict)

/-- The operations of what committed commands are applied to. -/
structure Target (σ : Type) where
  setSession (s : σ) (sid : String) (session : Json) : σ
  /-- Replaces the whole contents of a plugin. -/
  setStorage (s : σ) (pluginId : String) (dict : PluginDict) : σ
  /-- Sets one key. -/
  setKey (s : σ) (pluginId key : String) (value : Json) : σ
  /-- Removes one key. -/
  deleteKey (s : σ) (pluginId key : String) : σ

/-- Routes a command to the operations of a target. -/
def Command.dispatch {σ : Type} (target : Target σ) (s : σ) : Command → σ
  | .session data => target.setSession s data.sid data.session
  | .sessions batch => batch.foldl (fun s data => target.setSession s data.sid data.session) s
  | .storageInit plugins =>
    plugins.foldl (fun s (pluginId, dict) => target.setStorage s pluginId dict) s
  | .storageSetAll pluginId dict => target.setStorage s pluginId dict
  | .storageSet pluginId key value => target.setKey s pluginId key value
  | .storageDeleteAll pluginId => target.setStorage s pluginId []
  | .storageDelete pluginId key => target.deleteKey s pluginId key

/-- Sessions by session id and stored contents by plugin. -/
structure Store where
  sessions : Dict Json
  plugins : Dict PluginDict
  deriving Repr

namespace Store

def empty : Store := ⟨[], []⟩

def session? (s : Store) (sid : String) : Option Json := s.sessions.get? sid

def sessionCount (s : Store) : Nat := s.sessions.length

/-- The whole contents of a plugin, if anything was ever stored for it. -/
def storage? (s : Store) (pluginId : String) : Option PluginDict := s.plugins.get? pluginId

def storageValue? (s : Store) (pluginId key : String) : Option Json :=
  (s.storage? pluginId).bind (·.get? key)

def setSession (s : Store) (sid : String) (session : Json) : Store :=
  { s with sessions := s.sessions.insert sid session }

def setStorage (s : Store) (pluginId : String) (dict : PluginDict) : Store :=
  { s with plugins := s.plugins.insert pluginId dict }

/-- A plugin without contents gets some. -/
def setKey (s : Store) (pluginId key : String) (value : Json) : Store :=
  s.setStorage pluginId (((s.storage? pluginId).getD []).insert key value)

/-- A plugin without contents stays without. -/
def deleteKey (s : Store) (pluginId key : String) : Store :=
  match s.storage? pluginId with
  | none => s
  | some dict => s.setStorage pluginId (dict.erase key)

def target : Target Store := { setSession, setStorage, setKey, deleteKey }

def apply (s : Store) (c : Command) : Store := c.dispatch target s

def applyAll (s : Store) (cs : List Command) : Store := cs.foldl apply s

end Store

/-- A single write, apart from what it is written to. -/
inductive Write where
  | setSession (sid : String) (session : Json)
  | setStorage (pluginId : String) (dict : PluginDict)
  | setKey (pluginId key : String) (value : Json)
  | deleteKey (pluginId key : String)
  deriving Repr

/-- The single writes that a command stands for, in order. -/
def Command.writes : Command → List Write
  | .session data => [.setSession data.sid data.session]
  | .sessions batch => batch.map fun data => .setSession data.sid data.session
  | .storageInit plugins => plugins.map fun (pluginId, dict) => .setStorage pluginId dict
  | .storageSetAll pluginId dict => [.setStorage pluginId dict]
  | .storageSet pluginId key value => [.setKey pluginId key value]
  | .storageDeleteAll pluginId => [.setStorage pluginId []]
  | .storageDelete pluginId key => [.deleteKey pluginId key]

end Quorum
