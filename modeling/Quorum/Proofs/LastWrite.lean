import Mathlib.Data.List.Dedup
import Quorum.Proofs.Dictionary
import Quorum.Store

/-!
What a store holds, read off the history of its writes. A command that is routed to the store comes
to its single writes, one after the other; each place is settled by the last write that concerns it,
whatever has been written elsewhere and before. So a store that is taken through the same commands
twice in a row is where it was after the first time.
-/

namespace Quorum

open Json (Dict)

namespace Write

/-- The session that a write leaves under a session id. -/
def session? (sid : String) : Write → Option Json
  | .setSession id session => if id = sid then some session else none
  | _ => none

def sid? : Write → Option String
  | .setSession sid _ => some sid
  | _ => none

/-- A write after which a plugin has contents, whether it had any before or not. -/
def Fills (pluginId : String) : Write → Prop
  | .setStorage id _ => id = pluginId
  | .setKey id _ _ => id = pluginId
  | _ => False

/-- What a write settles about the value at a key of a plugin: that there is one, or that there is
none. -/
def value? (pluginId key : String) : Write → Option (Option Json)
  | .setStorage id dict => if id = pluginId then some (dict.get? key) else none
  | .setKey id k value => if id = pluginId ∧ k = key then some (some value) else none
  | .deleteKey id k => if id = pluginId ∧ k = key then some none else none
  | .setSession .. => none

/-- What a write makes of the contents of a plugin. -/
def contents (pluginId : String) (held : Option PluginDict) : Write → Option PluginDict
  | .setStorage id dict => if id = pluginId then some dict else held
  | .setKey id key value => if id = pluginId then some ((held.getD []).insert key value) else held
  | .deleteKey id key => if id = pluginId then held.map (·.erase key) else held
  | .setSession .. => held

/-- A dictionary that is written whole has its keys in order. -/
def Sorted : Write → Prop
  | .setStorage _ dict => dict.Sorted
  | _ => True

instance (w : Write) : Decidable w.Sorted :=
  match w with
  | .setStorage _ dict => inferInstanceAs (Decidable dict.Sorted)
  | .setSession .. | .setKey .. | .deleteKey .. => .isTrue trivial

end Write

/-- The single writes of commands, one after the other. -/
def history (cs : List Command) : List Write := cs.flatMap Command.writes

/-- What the last of the writes that settle something settles. -/
def lastOf {β : Type} (f : Write → Option β) (ws : List Write) : Option β := ws.reverse.findSome? f

theorem lastOf_append {β : Type} (f : Write → Option β) (ws later : List Write) :
    lastOf f (ws ++ later) = (lastOf f later).or (lastOf f ws) := by
  unfold lastOf
  rw [List.reverse_append, List.findSome?_append]

theorem lastOf_cons {β : Type} (f : Write → Option β) (w : Write) (ws : List Write) :
    lastOf f (w :: ws) = (lastOf f ws).or (f w) := by
  rw [← List.singleton_append, lastOf_append]
  simp [lastOf]

theorem lastOf_isSome {β : Type} (f : Write → Option β) (ws : List Write) :
    (lastOf f ws).isSome ↔ ∃ w ∈ ws, (f w).isSome := by
  unfold lastOf
  simp only [List.findSome?_isSome_iff, List.mem_reverse]

theorem Write.session?_isSome {w : Write} {sid : String} :
    (w.session? sid).isSome ↔ w.sid? = some sid := by
  cases w with
  | setSession id session => by_cases h : id = sid <;> simp [session?, sid?, h]
  | _ => simp [session?, sid?]

/-- A single write is one operation. -/
def Target.write {σ : Type} (target : Target σ) (s : σ) : Write → σ
  | .setSession sid session => target.setSession s sid session
  | .setStorage pluginId dict => target.setStorage s pluginId dict
  | .setKey pluginId key value => target.setKey s pluginId key value
  | .deleteKey pluginId key => target.deleteKey s pluginId key

/-- Whatever a target makes of its operations, a command comes to its writes, one after another. -/
theorem Command.dispatch_eq_foldl {σ : Type} (target : Target σ) (s : σ) (c : Command) :
    c.dispatch target s = c.writes.foldl target.write s := by
  cases c with
  | sessions batch =>
      simp only [dispatch, writes, List.foldl_map]
      rfl
  | storageInit plugins =>
      simp only [dispatch, writes, List.foldl_map]
      rfl
  | _ => rfl

/-- A target that keeps a record of its operations and does nothing else. -/
def Target.recorder : Target (List Write) where
  setSession ws sid session := ws ++ [.setSession sid session]
  setStorage ws pluginId dict := ws ++ [.setStorage pluginId dict]
  setKey ws pluginId key value := ws ++ [.setKey pluginId key value]
  deleteKey ws pluginId key := ws ++ [.deleteKey pluginId key]

theorem Target.foldl_recorder (done ws : List Write) :
    ws.foldl recorder.write done = done ++ ws := by
  induction ws generalizing done with
  | nil => simp
  | cons w ws ih =>
      have hfirst : recorder.write done w = done ++ [w] := by cases w <;> rfl
      rw [List.foldl_cons, hfirst, ih, ← List.append_cons]

/-- The operations that a command is routed to are its writes, no more and no fewer. -/
theorem Command.dispatch_recorder (c : Command) : c.dispatch .recorder [] = c.writes := by
  rw [dispatch_eq_foldl, Target.foldl_recorder, List.nil_append]

namespace Store

variable {s : Store}

def write (s : Store) (w : Write) : Store := target.write s w

theorem write_deleteKey (s : Store) (pluginId key : String) :
    s.write (.deleteKey pluginId key) =
      match s.storage? pluginId with
      | none => s
      | some dict => s.setStorage pluginId (dict.erase key) := rfl

theorem apply_eq_foldl (s : Store) (c : Command) : s.apply c = c.writes.foldl write s :=
  c.dispatch_eq_foldl target s

theorem applyAll_eq_foldl (s : Store) (cs : List Command) :
    s.applyAll cs = (history cs).foldl write s := by
  unfold history
  induction cs generalizing s with
  | nil => rfl
  | cons c cs ih =>
      have hlater := ih (s.apply c)
      rw [List.flatMap_cons, List.foldl_append, ← apply_eq_foldl, ← hlater]
      rfl

theorem session?_write (s : Store) (w : Write) (sid : String) :
    (s.write w).session? sid = (w.session? sid).or (s.session? sid) := by
  cases w with
  | setSession id session =>
      change (s.sessions.insert id session).get? sid = _
      rw [Dict.get?_insert, Write.session?]
      by_cases h : id = sid
      · simp only [h, if_true, Option.some_or]
      · simp only [h, Ne.symm h, if_false, Option.none_or]
        rfl
  | setStorage id dict => rfl
  | setKey id key value => rfl
  | deleteKey id key =>
      rw [write_deleteKey]
      split <;> rfl

theorem storage?_write (s : Store) (w : Write) (pluginId : String) :
    (s.write w).storage? pluginId = w.contents pluginId (s.storage? pluginId) := by
  have hinsert (id : String) (dict : PluginDict) :
      (s.plugins.insert id dict).get? pluginId =
        if id = pluginId then some dict else s.storage? pluginId := by
    rw [Dict.get?_insert]
    simp only [eq_comm]
    rfl
  cases w with
  | setSession id session => rfl
  | setStorage id dict => exact hinsert id dict
  | setKey id key value =>
      refine (hinsert id _).trans ?_
      rw [Write.contents]
      split
      · rename_i h
        rw [h]
      · rfl
  | deleteKey id key =>
      rw [Write.contents]
      cases hheld : s.storage? id with
      | none =>
          have hsame : s.write (.deleteKey id key) = s := by rw [write_deleteKey, hheld]
          rw [hsame]
          split
          · rename_i h
            rw [← h, hheld]
            rfl
          · rfl
      | some dict =>
          have hput : s.write (.deleteKey id key) = s.setStorage id (dict.erase key) := by
            rw [write_deleteKey, hheld]
          rw [hput]
          refine (hinsert id _).trans ?_
          split
          · rename_i h
            rw [← h, hheld]
            rfl
          · rfl

theorem storageValue?_write (s : Store) (w : Write) (pluginId key : String) :
    (s.write w).storageValue? pluginId key =
      (w.value? pluginId key).getD (s.storageValue? pluginId key) := by
  unfold storageValue?
  rw [storage?_write]
  cases w with
  | setSession id session => rfl
  | setStorage id dict =>
      rw [Write.contents, Write.value?]
      split <;> rfl
  | setKey id k value =>
      rw [Write.contents, Write.value?]
      by_cases hid : id = pluginId
      · simp only [hid, if_true, true_and, Option.bind_some, Dict.get?_insert]
        by_cases hk : k = key
        · simp only [hk, if_true, Option.getD_some]
        · simp only [hk, Ne.symm hk, if_false, Option.getD_none]
          cases s.storage? pluginId <;> rfl
      · simp only [hid, if_false, false_and, Option.getD_none]
  | deleteKey id k =>
      rw [Write.contents, Write.value?]
      by_cases hid : id = pluginId
      · simp only [hid, if_true, true_and]
        cases s.storage? pluginId with
        | none => split <;> rfl
        | some dict =>
            simp only [Option.map_some, Option.bind_some, Dict.get?_erase]
            by_cases hk : k = key
            · simp only [hk, if_true, Option.getD_some]
            · simp only [hk, Ne.symm hk, if_false, Option.getD_none]
      · simp only [hid, if_false, false_and, Option.getD_none]

/-- A plugin is without contents if it was before and the write gives it none. -/
theorem storage?_write_eq_none (s : Store) (w : Write) (pluginId : String) :
    (s.write w).storage? pluginId = none ↔ ¬ w.Fills pluginId ∧ s.storage? pluginId = none := by
  rw [storage?_write]
  cases w with
  | setSession id session => simp [Write.contents, Write.Fills]
  | setStorage id dict => by_cases h : id = pluginId <;> simp [Write.contents, Write.Fills, h]
  | setKey id key value => by_cases h : id = pluginId <;> simp [Write.contents, Write.Fills, h]
  | deleteKey id key => by_cases h : id = pluginId <;> simp [Write.contents, Write.Fills, h]

/-- The session under a session id is the one of the last write to it, or the one held before. -/
theorem session?_foldl (s : Store) (ws : List Write) (sid : String) :
    (ws.foldl write s).session? sid = (lastOf (Write.session? sid) ws).or (s.session? sid) := by
  induction ws generalizing s with
  | nil => rfl
  | cons w ws ih => rw [List.foldl_cons, ih, session?_write, lastOf_cons, Option.or_assoc]

/-- The value at a key of a plugin is as the last write settles it that settles anything about it,
or as it was before. -/
theorem storageValue?_foldl (s : Store) (ws : List Write) (pluginId key : String) :
    (ws.foldl write s).storageValue? pluginId key =
      (lastOf (Write.value? pluginId key) ws).getD (s.storageValue? pluginId key) := by
  induction ws generalizing s with
  | nil => rfl
  | cons w ws ih =>
      rw [List.foldl_cons, ih, storageValue?_write, lastOf_cons]
      cases lastOf (Write.value? pluginId key) ws <;> rfl

/-- A plugin is without contents if it was before and no write has given it any. -/
theorem storage?_foldl_eq_none (s : Store) (ws : List Write) (pluginId : String) :
    (ws.foldl write s).storage? pluginId = none ↔
      (∀ w ∈ ws, ¬ w.Fills pluginId) ∧ s.storage? pluginId = none := by
  induction ws generalizing s with
  | nil => simp
  | cons w ws ih =>
      rw [List.foldl_cons, ih, storage?_write_eq_none, List.forall_mem_cons, and_assoc,
        and_left_comm]

theorem write_sessions_sorted (h : s.sessions.Sorted) (w : Write) :
    (s.write w).sessions.Sorted := by
  cases w with
  | setSession id session => exact h.insert id session
  | setStorage id dict => exact h
  | setKey id key value => exact h
  | deleteKey id key =>
      rw [write_deleteKey]
      split <;> exact h

theorem foldl_sessions_sorted (h : s.sessions.Sorted) (ws : List Write) :
    (ws.foldl write s).sessions.Sorted := by
  induction ws generalizing s with
  | nil => exact h
  | cons w ws ih => exact ih (write_sessions_sorted h w)

/-- There is one session for every session id that has been written to. -/
theorem sessionCount_foldl (ws : List Write) :
    (ws.foldl write empty).sessionCount = (ws.filterMap Write.sid?).dedup.length := by
  have hsorted : (ws.foldl write empty).sessions.Sorted :=
    foldl_sessions_sorted (s := empty) List.Pairwise.nil ws
  have hkeys (sid : String) : sid ∈ (ws.foldl write empty).sessions.map (·.1) ↔
      sid ∈ (ws.filterMap Write.sid?).dedup := by
    have hread := session?_foldl empty ws sid
    change ((ws.foldl write empty).sessions).get? sid = _ at hread
    rw [Dict.mem_keys_iff, hread, List.mem_dedup, List.mem_filterMap]
    change ((lastOf (Write.session? sid) ws).or none).isSome ↔ _
    rw [Option.or_none, lastOf_isSome]
    simp only [Write.session?_isSome]
  have hperm := (List.perm_ext_iff_of_nodup hsorted.nodup_keys (List.nodup_dedup _)).mpr hkeys
  rw [← hperm.length_eq, List.length_map]
  rfl

end Store

/-- Reads show the last write. What is read from a store that commands have been applied to is told
by the history of their writes alone: a session is the one of the last write to its session id, and
there are as many sessions as session ids written to; a plugin has contents once it has been filled;
and the value at one of its keys is as the last write settles it that settles anything about it. -/
theorem reads_last_write (cs : List Command) :
    let s := Store.empty.applyAll cs
    let ws := history cs
    (∀ sid, s.session? sid = lastOf (Write.session? sid) ws) ∧
      s.sessionCount = (ws.filterMap Write.sid?).dedup.length ∧
      (∀ pluginId, s.storage? pluginId = none ↔ ∀ w ∈ ws, ¬ w.Fills pluginId) ∧
      ∀ pluginId key, s.storageValue? pluginId key =
        (lastOf (Write.value? pluginId key) ws).join := by
  intro s ws
  have hs : s = ws.foldl Store.write Store.empty := Store.applyAll_eq_foldl Store.empty cs
  rw [hs]
  refine ⟨?_, Store.sessionCount_foldl ws, ?_, ?_⟩
  · intro sid
    exact (Store.session?_foldl Store.empty ws sid).trans Option.or_none
  · intro pluginId
    rw [Store.storage?_foldl_eq_none]
    exact and_iff_left rfl
  · intro pluginId key
    rw [Store.storageValue?_foldl]
    change (lastOf (Write.value? pluginId key) ws).getD none = _
    cases lastOf (Write.value? pluginId key) ws <;> rfl

/-- Commands of all seven kinds. One plugin is filled, emptied and filled again, another one loses a
key; a session is written three times. -/
def dealings : List Command :=
  [.storageInit [("cart", [("a", .nat 1)]), ("theme", [("dark", .bool true), ("size", .nat 2)])],
    .sessions [⟨"bob", .nat 1⟩, ⟨"alice", .nat 2⟩, ⟨"bob", .nat 3⟩], .storageDelete "news" "x",
    .storageSetAll "cart" [("b", .nat 4)], .storageDeleteAll "cart",
    .storageSet "cart" "c" (.nat 5), .storageDelete "theme" "dark", .session ⟨"bob", .nat 6⟩]

theorem reads_last_write_dealings :
    let s := Store.empty.applyAll dealings
    let ws := history dealings
    s.sessions = [("alice", .nat 2), ("bob", .nat 6)] ∧
      s.plugins = [("cart", [("c", .nat 5)]), ("theme", [("size", .nat 2)])] ∧
      (s.session? "bob" = lastOf (Write.session? "bob") ws ∧
        lastOf (Write.session? "bob") ws = some (.nat 6)) ∧
      (s.sessionCount = (ws.filterMap Write.sid?).dedup.length ∧
        (ws.filterMap Write.sid?).dedup.length = 2) ∧
      ((s.storage? "news" = none ↔ ∀ w ∈ ws, ¬ w.Fills "news") ∧ s.storage? "news" = none) ∧
      (s.storageValue? "cart" "b" = (lastOf (Write.value? "cart" "b") ws).join ∧
        lastOf (Write.value? "cart" "b") ws = some none) ∧
      (s.storageValue? "cart" "c" = (lastOf (Write.value? "cart" "c") ws).join ∧
        lastOf (Write.value? "cart" "c") ws = some (some (.nat 5))) ∧
      s.storageValue? "theme" "dark" = (lastOf (Write.value? "theme" "dark") ws).join ∧
      lastOf (Write.value? "theme" "dark") ws = some none := by
  obtain ⟨hsession, hcount, hstorage, hvalue⟩ := reads_last_write dealings
  exact ⟨rfl, rfl, ⟨hsession "bob", rfl⟩, ⟨hcount, rfl⟩, ⟨hstorage "news", rfl⟩,
    ⟨hvalue "cart" "b", rfl⟩, ⟨hvalue "cart" "c", rfl⟩, hvalue "theme" "dark", rfl⟩

namespace Store

variable {s t : Store} {w : Write} {ws : List Write} {pluginId : String}

/-- A store with all its dictionaries in the order of their keys. -/
structure Sorted (s : Store) : Prop where
  sessions : s.sessions.Sorted
  plugins : s.plugins.Sorted
  contents : ∀ m ∈ s.plugins, m.2.Sorted

namespace Sorted

theorem storage? (h : s.Sorted) {dict : PluginDict} (hheld : s.storage? pluginId = some dict) :
    dict.Sorted :=
  h.contents _ (h.plugins.mem_iff_get?.mpr hheld)

theorem setStorage (h : s.Sorted) {dict : PluginDict} (hdict : dict.Sorted) (pluginId : String) :
    (s.setStorage pluginId dict).Sorted where
  sessions := h.sessions
  plugins := h.plugins.insert pluginId dict
  contents := by
    intro m hm
    rcases Dict.eq_or_mem_of_mem_insert hm with rfl | hold
    · exact hdict
    · exact h.contents m hold

theorem write (h : s.Sorted) (hw : w.Sorted) : (s.write w).Sorted := by
  cases w with
  | setSession id session => exact ⟨h.sessions.insert id session, h.plugins, h.contents⟩
  | setStorage id dict => exact h.setStorage hw id
  | setKey id key value =>
      refine h.setStorage (Dict.Sorted.insert ?_ key value) id
      cases hheld : s.storage? id with
      | none => exact List.Pairwise.nil
      | some dict => exact h.storage? hheld
  | deleteKey id key =>
      rw [write_deleteKey]
      split
      · exact h
      · rename_i dict hheld
        exact h.setStorage ((h.storage? hheld).erase key) id

theorem foldl (h : s.Sorted) {ws : List Write} (hws : ∀ w ∈ ws, w.Sorted) :
    (ws.foldl Store.write s).Sorted := by
  induction ws generalizing s with
  | nil => exact h
  | cons w ws ih =>
      obtain ⟨hw, hrest⟩ := List.forall_mem_cons.mp hws
      exact ih (h.write hw) hrest

/-- What is read from a store determines it. -/
theorem ext (hs : s.Sorted) (ht : t.Sorted)
    (hsession : ∀ sid, s.session? sid = t.session? sid)
    (hstorage : ∀ pluginId, s.storage? pluginId = none ↔ t.storage? pluginId = none)
    (hvalue : ∀ pluginId key, s.storageValue? pluginId key = t.storageValue? pluginId key) :
    s = t := by
  have hplugin (pluginId : String) : s.storage? pluginId = t.storage? pluginId := by
    cases hheld : s.storage? pluginId with
    | none => exact ((hstorage pluginId).mp hheld).symm
    | some dict =>
        cases hother : t.storage? pluginId with
        | none =>
            rw [(hstorage pluginId).mpr hother] at hheld
            cases hheld
        | some dict' =>
            have hkey (key : String) : dict.get? key = dict'.get? key := by
              have hsame := hvalue pluginId key
              unfold storageValue? at hsame
              rwa [hheld, hother] at hsame
            rw [(hs.storage? hheld).ext (ht.storage? hother) hkey]
  obtain ⟨sessions, plugins⟩ := s
  obtain ⟨sessions', plugins'⟩ := t
  obtain rfl : sessions = sessions' := hs.sessions.ext ht.sessions hsession
  obtain rfl : plugins = plugins' := hs.plugins.ext ht.plugins hplugin
  rfl

end Sorted

/-- What has been written twice in a row is settled as after the first time. -/
theorem Sorted.foldl_twice (h : s.Sorted) {ws : List Write} (hws : ∀ w ∈ ws, w.Sorted) :
    ws.foldl Store.write (ws.foldl Store.write s) = ws.foldl Store.write s := by
  have honce : (ws.foldl Store.write s).Sorted := h.foldl hws
  refine (honce.foldl hws).ext honce ?_ ?_ ?_
  · intro sid
    rw [session?_foldl, session?_foldl, ← Option.or_assoc, Option.or_self]
  · intro pluginId
    rw [storage?_foldl_eq_none, storage?_foldl_eq_none, ← and_assoc, and_self]
  · intro pluginId key
    rw [storageValue?_foldl, storageValue?_foldl]
    cases lastOf (Write.value? pluginId key) ws <;> rfl

end Store

/-- The keys of the dictionaries that a command carries are in order. -/
def Command.Sorted (c : Command) : Prop := ∀ w ∈ c.writes, w.Sorted

instance (c : Command) : Decidable c.Sorted := inferInstanceAs (Decidable (∀ w ∈ c.writes, _))

namespace Store

theorem applyAll_append (s : Store) (xs ys : List Command) :
    s.applyAll (xs ++ ys) = (s.applyAll xs).applyAll ys :=
  List.foldl_append

theorem Sorted.applyAll {s : Store} (h : s.Sorted) {cs : List Command} (hcs : ∀ c ∈ cs, c.Sorted) :
    (s.applyAll cs).Sorted ∧ (s.applyAll cs).applyAll cs = s.applyAll cs := by
  have hws : ∀ w ∈ history cs, w.Sorted := by
    intro w hw
    obtain ⟨c, hc, hw⟩ := List.mem_flatMap.mp hw
    exact hcs c hc w hw
  simp only [applyAll_eq_foldl]
  exact ⟨h.foldl hws, h.foldl_twice hws⟩

end Store

/-- Replaying a suffix of the history is harmless: commands that are applied twice in a row leave
every store as it was after the first time, whatever has come before them. -/
theorem replay_harmless {s : Store} (hs : s.Sorted) {xs ys : List Command}
    (hxs : ∀ c ∈ xs, c.Sorted) (hys : ∀ c ∈ ys, c.Sorted) :
    s.applyAll (ys ++ ys) = s.applyAll ys ∧
      s.applyAll (xs ++ ys ++ ys) = s.applyAll (xs ++ ys) := by
  constructor
  · rw [Store.applyAll_append, (hs.applyAll hys).2]
  · have hbefore : (s.applyAll xs).Sorted := (hs.applyAll hxs).1
    rw [Store.applyAll_append, Store.applyAll_append, (hbefore.applyAll hys).2]

/-- A store in which two plugins have contents. -/
def stocked : Store :=
  ⟨[("alice", .null)], [("cart", [("a", .nat 1), ("b", .nat 2)]), ("theme", [])]⟩

/-- Sets and deletes keys of two plugins, one of them unknown so far, and replaces the contents of
one in between. One session is written twice in a batch. -/
def errands : List Command :=
  [.storageSet "cart" "c" (.nat 3), .storageDelete "news" "x", .storageDelete "cart" "a",
    .storageSetAll "cart" [("a", .nat 4), ("d", .null)], .storageDelete "cart" "d",
    .sessions [⟨"bob", .nat 1⟩, ⟨"alice", .nat 2⟩, ⟨"bob", .nat 3⟩], .storageSet "news" "x" .null,
    .storageDeleteAll "theme"]

theorem replay_harmless_errands :
    stocked.Sorted ∧ (∀ c ∈ errands, c.Sorted) ∧
      (stocked.applyAll errands).plugins =
        [("cart", [("a", .nat 4)]), ("news", [("x", .null)]), ("theme", [])] ∧
      stocked.applyAll (errands ++ errands) = stocked.applyAll errands ∧
      stocked.applyAll (errands.take 3 ++ errands.drop 3 ++ errands.drop 3) =
        stocked.applyAll (errands.take 3 ++ errands.drop 3) := by
  have hstocked : stocked.Sorted := ⟨by decide, by decide, by decide⟩
  have herrands : ∀ c ∈ errands, c.Sorted := by decide
  have hfirst : ∀ c ∈ errands.take 3, c.Sorted := by decide
  have hlast : ∀ c ∈ errands.drop 3, c.Sorted := by decide
  exact ⟨hstocked, herrands, rfl, (replay_harmless hstocked hfirst herrands).1,
    (replay_harmless hstocked hfirst hlast).2⟩

end Quorum
