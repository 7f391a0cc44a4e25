import Quorum.Json.Reader

/-!
The commands that are replicated: writes to user sessions and to the key-value storage of plugins.
-/

namespace Quorum

open Json (Reader Record RecordField Tagged Dict)

/-- The stored contents of one plugin. -/
abbrev PluginDict := Dict Json

/-- One user session under its session id. -/
structure Session where
  sid : String
  session : Json
  deriving Repr

inductive Command where
  /-- Sets one session. -/
  | session (data : Session)
  /-- Sets sessions, one after the other. -/
  | sessions (batch : List Session)
  /-- Replaces the contents of every plugin listed. -/
  | storageInit (plugins : Dict PluginDict)
  /-- Replaces the contents of one plugin. -/
  | storageSetAll (pluginId : String) (dict : PluginDict)
  | storageSet (pluginId key : String) (value : Json)
  /-- Empties the contents of one plugin. -/
  | storageDeleteAll (pluginId : String)
  | storageDelete (pluginId key : String)
  deriving Repr

inductive CommandKind where
  | session
  | sessions
  | storageInit
  | storageSetAll
  | storageSet
  | storageDeleteAll
  | storageDelete
  deriving DecidableEq, Repr

namespace CommandKind

def label : CommandKind → String
  | .session => "session"
  | .sessions => "sessions"
  | .storageInit => "storageInit"
  | .storageSetAll => "storageSetAll"
  | .storageSet => "storageSet"
  | .storageDeleteAll => "storageDeleteAll"
  | .storageDelete => "storageDelete"

def all : List CommandKind :=
  [.session, .sessions, .storageInit, .storageSetAll, .storageSet, .storageDeleteAll,
    .storageDelete]

end CommandKind

namespace Session

def toJson (s : Session) : Json := .object [("sid", .string s.sid), ("session", s.session)]

def read : Reader Session := Record.read
  { initial := ⟨"", .null⟩
    fields :=
      [ .always "sid" Reader.string fun v s => { s with sid := v },
        .always "session" Reader.any fun v s => { s with session := v } ]
    arrays := true
    shortArrays := false }

end Session

namespace Command

def kind : Command → CommandKind
  | .session _ => .session
  | .sessions _ => .sessions
  | .storageInit _ => .storageInit
  | .storageSetAll .. => .storageSetAll
  | .storageSet .. => .storageSet
  | .storageDeleteAll _ => .storageDeleteAll
  | .storageDelete .. => .storageDelete

def payload : Command → Json
  | .session data => data.toJson
  | .sessions batch => .array (batch.map Session.toJson)
  | .storageInit plugins => .object (plugins.map fun (p, dict) => (p, .object dict))
  | .storageSetAll pluginId dict => .object [("pluginId", .string pluginId), ("dict", .object dict)]
  | .storageSet pluginId key value =>
    .object [("pluginId", .string pluginId), ("key", .string key), ("value", value)]
  | .storageDeleteAll pluginId => .object [("pluginId", .string pluginId)]
  | .storageDelete pluginId key =>
    .object [("pluginId", .string pluginId), ("key", .string key)]

/-- A command is written as its kind beside what the kind needs. -/
def toJson (c : Command) : Json :=
  .object [("type", .string c.kind.label), ("payload", c.payload)]

def readDict : Reader PluginDict := Reader.dict Reader.any

/-- The members of a storage command; a command has only some of them. -/
structure StorageArgs where
  pluginId : String
  key : String
  dict : PluginDict
  value : Json

def pluginIdField : RecordField StorageArgs :=
  .always "pluginId" Reader.string fun v a => { a with pluginId := v }

def keyField : RecordField StorageArgs :=
  .always "key" Reader.string fun v a => { a with key := v }

def dictField : RecordField StorageArgs :=
  .always "dict" readDict fun v a => { a with dict := v }

def valueField : RecordField StorageArgs :=
  .always "value" Reader.any fun v a => { a with value := v }

/-- Storage commands are written as objects only. -/
def readArgs (fields : List (RecordField StorageArgs)) : Reader StorageArgs := Record.read
  { initial := ⟨"", "", [], .null⟩, fields, arrays := false, shortArrays := false }

def readPayload : CommandKind → Reader Command
  | .session => fun o => .session <$> Session.read o
  | .sessions => fun o => .sessions <$> Reader.list Session.read o
  | .storageInit => fun o => .storageInit <$> Reader.dict readDict o
  | .storageSetAll => fun o => do
    let a ← readArgs [pluginIdField, dictField] o
    return .storageSetAll a.pluginId a.dict
  | .storageSet => fun o => do
    let a ← readArgs [pluginIdField, keyField, valueField] o
    return .storageSet a.pluginId a.key a.value
  | .storageDeleteAll => fun o => do
    let a ← readArgs [pluginIdField] o
    return .storageDeleteAll a.pluginId
  | .storageDelete => fun o => do
    let a ← readArgs [pluginIdField, keyField] o
    return .storageDelete a.pluginId a.key

def read : Reader Command := Tagged.read
  { tagKey := "type"
    contentKey := "payload"
    tags := CommandKind.all
    label := CommandKind.label
    content := readPayload }

end Command

end Quorum
