import Quorum.Proofs.Outlining

/-!
What the readers make of written values. A reader that gets a value back out of its outline also
finds the bracket too many in an outline that is cut off, so it reads the written form exactly
where that is not nested too deep.
-/

namespace Quorum.Json

open Outline

variable {β γ δ σ τ : Type}

/-- `r` reads `x` out of `v`, the form in which `x` is written. -/
structure Reads (r : Reader β) (v : Json) (x : β) : Prop where
  whole : v.Whole
  ok : r (.ofJson v) = .ok x
  cut : ∀ o, Cut o (.ofJson v) → r o = .error .malformed

/-- A written value is read back if no more brackets are open at once than may be. -/
theorem decodeText_print {r : Reader β} {v : Json} {x : β} (h : Reads r v x) :
    decodeText r v.print = if v.depth ≤ depthLimit then .ok x else .error .malformed := by
  by_cases hdepth : v.depth ≤ depthLimit
  · rw [if_pos hdepth, decodeText, ofText_print h.whole hdepth]
    simp only [h.ok, ok_bind]
    rfl
  · have hcut := h.cut _ (ofText_print_cut h.whole (Nat.lt_of_not_le hdepth))
    rw [if_neg hdepth, decodeText]
    simp only [hcut, error_bind]

/-- Members in the order of their keys, each key once. -/
def Dict.Sorted (d : Dict β) : Prop := d.Pairwise (·.1 < ·.1)

instance (d : Dict β) : Decidable d.Sorted := inferInstanceAs (Decidable (d.Pairwise _))

theorem Dict.insert_of_forall_lt {d : Dict β} {key : String} {value : β}
    (h : ∀ m ∈ d, m.1 < key) : d.insert key value = d ++ [(key, value)] := by
  induction d with
  | nil => rfl
  | cons m d ih =>
      obtain ⟨hm, hd⟩ := List.forall_mem_cons.mp h
      obtain ⟨k, v⟩ := m
      have hlt : k < key := hm
      have hne : key ≠ k := fun heq => String.lt_irrefl k (heq ▸ hlt)
      rw [Dict.insert, if_neg (String.lt_asymm hlt), if_neg hne, ih hd, List.cons_append]

theorem Dict.ofList_of_sorted {d : Dict β} (h : d.Sorted) : Dict.ofList d = d := by
  have hfold (acc rest : Dict β) (h : Dict.Sorted (acc ++ rest)) :
      rest.foldl (fun d m => Dict.insert m.1 m.2 d) acc = acc ++ rest := by
    induction rest generalizing acc with
    | nil => simp
    | cons m rest ih =>
        have hlast : ∀ m' ∈ acc, m'.1 < m.1 := fun m' hm' =>
          (List.pairwise_append.mp h).2.2 m' hm' m List.mem_cons_self
        rw [List.append_cons] at h
        rw [List.foldl_cons, Dict.insert_of_forall_lt hlast, ih _ h, ← List.append_cons]
  exact hfold [] d h

theorem mapM_map {f : β → δ} {r : δ → Except Fault β} {xs : List β}
    (h : ∀ x ∈ xs, r (f x) = .ok x) : (xs.map f).mapM r = .ok xs := by
  induction xs with
  | nil => rfl
  | cons x xs ih =>
      obtain ⟨hx, hxs⟩ := List.forall_mem_cons.mp h
      rw [List.map_cons, List.mapM_cons, hx, ih hxs]
      rfl

/-- The first item that fails to be read decides. -/
theorem mapM_append_cons {f : β → δ} {r : δ → Except Fault β} {xs : List β} {y : δ} {fault : Fault}
    (h : ∀ x ∈ xs, r (f x) = .ok x) (hy : r y = .error fault) (more : List δ) :
    (xs.map f ++ y :: more).mapM r = .error fault := by
  rw [List.mapM_append, mapM_map h, ok_bind, List.mapM_cons, hy]
  rfl

namespace Reads

theorem string (s : String) : Reads Reader.string (.string s) s :=
  ⟨.string s, rfl, fun _ h => nomatch h⟩

theorem bool (b : Bool) : Reads Reader.bool (.bool b) b :=
  ⟨.bool b, rfl, fun _ h => nomatch h⟩

theorem integer {low high i : Int} (hword : FitsWord i) (h : low ≤ i ∧ i ≤ high) :
    Reads (Reader.integer low high) (.int i) i :=
  ⟨.integer hword, if_pos h, fun _ h => nomatch h⟩

theorem word {bits n : Nat} (hbits : bits ≤ 64) (h : n < Nat.pow 2 bits) :
    Reads (Reader.word bits) (.nat n) n := by
  have hpow : Nat.pow 2 bits ≤ Nat.pow 2 64 := Nat.pow_le_pow_right (by decide) hbits
  have hword : FitsWord (n : Int) := by
    have hn : n < 0x10000000000000000 := Nat.lt_of_lt_of_le h hpow
    unfold FitsWord
    omega
  have hread : Reads (Reader.integer 0 ((Nat.pow 2 bits : Nat) - 1)) (.int n) n :=
    .integer hword (by omega)
  have hok : Reader.integer 0 ((Nat.pow 2 bits : Nat) - 1) (ofJson (.nat n)) = .ok (n : Int) :=
    hread.ok
  refine ⟨hread.whole, ?_, fun _ h => nomatch h⟩
  unfold Reader.word
  rw [hok, ok_bind, Int.toNat_natCast]
  rfl

theorem map {r : Reader β} {v : Json} {x : β} (h : Reads r v x) (f : β → γ) :
    Reads (fun o => f <$> r o) v (f x) where
  whole := h.whole
  ok := by rw [h.ok]; rfl
  cut o ho := by rw [h.cut o ho]; rfl

theorem bind {r : Reader β} {f : β → Except Fault γ} {v : Json} {x : β} {y : γ}
    (h : Reads r v x) (hf : f x = .ok y) : Reads (fun o => r o >>= f) v y where
  whole := h.whole
  ok := by rw [h.ok, ok_bind, hf]
  cut o ho := by rw [h.cut o ho, error_bind]

theorem option_none {r : Reader β} : Reads (Reader.option r) .null none :=
  ⟨.null, rfl, fun _ h => nomatch h⟩

theorem option_of_ne_null {r : Reader β} {o : Outline} (ho : o ≠ .null) :
    Reader.option r o = some <$> r o := by
  unfold Reader.option
  split
  · exact absurd rfl ho
  · rfl

theorem option_some {r : Reader β} {v : Json} {x : β} (h : Reads r v x) (hv : v ≠ .null) :
    Reads (Reader.option r) v (some x) where
  whole := h.whole
  ok := by
    have ho : Outline.ofJson v ≠ .null := by
      cases v with
      | null => exact absurd rfl hv
      | _ => exact nofun
    rw [option_of_ne_null ho, h.ok]
    rfl
  cut o ho := by
    have hnull : o ≠ .null := by
      rintro rfl
      cases ho
    rw [option_of_ne_null hnull, h.cut o ho]
    rfl

theorem list {r : Reader β} (toJson : β → Json) {xs : List β}
    (h : ∀ x ∈ xs, Reads r (toJson x) x) : Reads (Reader.list r) (.array (xs.map toJson)) xs := by
  have hitems : ofItems (xs.map toJson) = xs.map (ofJson ∘ toJson) := by
    rw [ofItems_eq, List.map_map]
  refine ⟨.array ?_, ?_, ?_⟩
  · simpa using fun x hx => (h x hx).whole
  · rw [ofJson, hitems, Reader.list, mapM_map (f := ofJson ∘ toJson) fun x hx => (h x hx).ok]
    rfl
  · intro o ho
    rw [ofJson, hitems] at ho
    obtain rfl | ⟨before, o', more, p, after, e, happend, hcut, rfl⟩ := ho.of_array
    · rfl
    · obtain ⟨ys, zs, rfl, rfl, hzs⟩ := List.map_eq_append_iff.mp happend
      obtain ⟨y, zs, rfl, rfl, rfl⟩ := List.map_eq_cons_iff.mp hzs
      have hbefore : ∀ x ∈ ys, r ((ofJson ∘ toJson) x) = .ok x := fun x hx =>
        (h x (List.mem_append_left _ hx)).ok
      have hy : r o' = .error .malformed := (h y (by simp)).cut o' hcut
      rw [Reader.list, mapM_append_cons hbefore hy]
      rfl

end Reads

/-- Free values as they are kept: with integers that fit a word for numbers, and with the members
of every object in the order of their keys, each key once. -/
inductive Free : Json → Prop
  | null : Free .null
  | bool (b : Bool) : Free (.bool b)
  | integer {i : Int} (h : FitsWord i) : Free (.number (.integer i))
  | string (s : String) : Free (.string s)
  | array {items : List Json} (h : ∀ v ∈ items, Free v) : Free (.array items)
  | object {members : Dict Json} (hkeys : members.Sorted) (h : ∀ m ∈ members, Free m.2) :
      Free (.object members)

namespace Reads

/-- What is read of a member of an object of values by key. -/
def keyed (r : Reader β) : String × Outline → Except Fault (String × β) := fun (k, o) => do
  return (k, ← r o)

theorem dict_object (r : Reader β) (members : List (String × Outline)) (ending : Ending) :
    Reader.dict r (.object members ending) = (do
      let ms ← members.mapM (keyed r)
      ending.finish
      return Dict.ofList ms) := rfl

theorem dict {r : Reader β} (toJson : β → Json) {xs : Dict β} (hkeys : xs.Sorted)
    (h : ∀ m ∈ xs, Reads r (toJson m.2) m.2) :
    Reads (Reader.dict r) (.object (xs.map fun m => (m.1, toJson m.2))) xs := by
  have hmembers : ofMembers (xs.map fun m => (m.1, toJson m.2)) =
      xs.map fun m => (m.1, ofJson (toJson m.2)) := by
    rw [ofMembers_eq, List.map_map]
    rfl
  have hread : ∀ m ∈ xs, keyed r (m.1, ofJson (toJson m.2)) = .ok m := by
    intro m hm
    rw [keyed, (h m hm).ok]
    rfl
  refine ⟨.object ?_, ?_, ?_⟩
  · exact List.forall_mem_map.mpr fun m hm => (h m hm).whole
  · rw [ofJson, hmembers, dict_object, mapM_map hread, ok_bind, Dict.ofList_of_sorted hkeys]
    rfl
  · intro o ho
    rw [ofJson, hmembers] at ho
    obtain rfl | ⟨before, k, o', more, p, after, e, happend, hcut, rfl⟩ := ho.of_object
    · rfl
    · obtain ⟨ys, zs, rfl, rfl, hzs⟩ := List.map_eq_append_iff.mp happend
      obtain ⟨y, zs, rfl, hy, rfl⟩ := List.map_eq_cons_iff.mp hzs
      obtain ⟨rfl, rfl⟩ := Prod.mk.inj hy
      have hbroken : keyed r (y.1, o') = .error .malformed := by
        rw [keyed, (h y (by simp)).cut o' hcut]
        rfl
      have hbefore : ∀ m ∈ ys, keyed r (m.1, ofJson (toJson m.2)) = .ok m := fun m hm =>
        hread m (List.mem_append_left _ hm)
      rw [dict_object, mapM_append_cons hbefore hbroken]
      rfl

end Reads

namespace Outline

/-- A free array is a list of free values. -/
theorem toJson_array (items : List Outline) (ending : Ending) :
    toJson (.array items ending) = .array <$> Reader.list Reader.any (.array items ending) := by
  have hitems : itemsToJson ending items = Reader.list Reader.any (.array items ending) := by
    induction items with
    | nil => cases ending <;> rfl
    | cons o items ih =>
        rw [itemsToJson, ih]
        simp only [Reader.list, Reader.any, List.mapM_cons, bind_assoc, pure_bind]
  rw [toJson, hitems]
  rfl

theorem toJson_object (members : List (String × Outline)) (ending : Ending) :
    toJson (.object members ending) =
      .object <$> Reader.dict Reader.any (.object members ending) := by
  have hmembers : membersToJson ending members = (do
      let ms ← members.mapM (Reads.keyed Reader.any)
      ending.finish
      return ms) := by
    induction members with
    | nil => cases ending <;> rfl
    | cons m members ih =>
        rw [membersToJson, ih]
        simp only [Reads.keyed, Reader.any, List.mapM_cons, bind_assoc, pure_bind]
  rw [toJson, hmembers, Reads.dict_object]
  simp only [bind_assoc, pure_bind, map_eq_pure_bind]

end Outline

namespace Reads

theorem any {v : Json} (hv : v.Free) : Reads Reader.any v v := by
  induction hv with
  | null => exact ⟨.null, rfl, fun _ h => nomatch h⟩
  | bool b => exact ⟨.bool b, rfl, fun _ h => nomatch h⟩
  | integer h => exact ⟨.integer h, rfl, fun _ h => nomatch h⟩
  | string s => exact ⟨.string s, rfl, fun _ h => nomatch h⟩
  | @array items _ ih =>
      have hread := (Reads.list id ih).map Json.array
      rw [List.map_id] at hread
      refine ⟨hread.whole, ?_, ?_⟩
      · rw [Reader.any, ofJson, toJson_array]
        exact hread.ok
      · intro o ho
        have hbroken := hread.cut o ho
        obtain rfl | ⟨before, o', more, p, after, e, happend, hcut, rfl⟩ := ho.of_array
        · rfl
        · rw [Reader.any, toJson_array]
          exact hbroken
  | @object members hkeys _ ih =>
      have hread := (Reads.dict id hkeys ih).map Json.object
      simp only [id, List.map_id'] at hread
      refine ⟨hread.whole, ?_, ?_⟩
      · rw [Reader.any, ofJson, toJson_object]
        exact hread.ok
      · intro o ho
        have hbroken := hread.cut o ho
        obtain rfl | ⟨before, k, o', more, p, after, e, happend, hcut, rfl⟩ := ho.of_object
        · rfl
        · rw [Reader.any, toJson_object]
          exact hbroken

end Reads

/-- The members of an object give the fields of a record their values, one after the other. -/
inductive Fills : σ → List (RecordField σ) → List (String × Json) → σ → Prop
  | nil (s : σ) : Fills s [] [] s
  | cons {s s' t : σ} {f : RecordField σ} {fs : List (RecordField σ)} {v : Json}
      {members : List (String × Json)} (h : Reads (fun o => f.read o s) v s')
      (hs : Fills s' fs members t) : Fills s (f :: fs) ((f.name, v) :: members) t

theorem Fills.whole {s t : σ} {fs : List (RecordField σ)} {members : List (String × Json)}
    (h : Fills s fs members t) : ∀ m ∈ members, m.2.Whole := by
  induction h with
  | nil s => simp
  | cons h _ ih => exact List.forall_mem_cons.mpr ⟨h.whole, ih⟩

namespace Record

/-- The names of fields that have been read, the last one first. -/
def seen (fields : List (RecordField σ)) : List String := (fields.map (·.name)).reverse

variable {d : Record σ} {done fs : List (RecordField σ)}

/-- A member with the name of the next field is read into that field. -/
theorem readMembers_cons {f : RecordField σ} (hfields : d.fields = done ++ f :: fs)
    (hnames : (d.fields.map (·.name)).Nodup) (ending : Ending) (s : σ) (o : Outline)
    (rest : List (String × Outline)) :
    d.readMembers ending (seen done) s ((f.name, o) :: rest) = (do
      d.readMembers ending (seen (done ++ [f])) (← f.read o s) rest) := by
  rw [hfields, List.map_append, List.nodup_append] at hnames
  have hnew : ∀ g ∈ done, g.name ≠ f.name := fun g hg =>
    hnames.2.2 g.name (List.mem_map_of_mem hg) f.name (by simp)
  have hfind : d.fields.find? (·.name = f.name) = some f := by
    rw [hfields, List.find?_append, List.find?_eq_none.mpr (by simpa using hnew)]
    simp
  have hunseen : (seen done).contains f.name = false := by
    simpa [seen] using fun g hg => hnew g hg
  rw [readMembers, hfind]
  simp only [hunseen, Bool.false_eq_true, if_false]
  simp [seen]

theorem readMembers_fills (done : List (RecordField σ))
    (hnames : (d.fields.map (·.name)).Nodup) {s t : σ} {members : List (String × Json)}
    (h : Fills s fs members t) (hfields : d.fields = done ++ fs) :
    d.readMembers .closed (seen done) s (ofMembers members) = .ok t := by
  induction h generalizing done with
  | nil s =>
      have hall : d.fields.any (fun f => f.required && !(seen done).contains f.name) = false := by
        rw [hfields, List.append_nil]
        refine List.any_eq_false.mpr fun f hf => ?_
        have hseen : f.name ∈ seen done := List.mem_reverse.mpr (List.mem_map_of_mem hf)
        simp [hseen]
      rw [ofMembers, readMembers, hall]
      rfl
  | @cons s s' t f fs v members h _ ih =>
      rw [ofMembers, readMembers_cons hfields hnames, h.ok, ok_bind]
      exact ih (done ++ [f]) (by simp [hfields])

theorem readMembers_fills_cut (done : List (RecordField σ))
    (hnames : (d.fields.map (·.name)).Nodup) {s t : σ} {members : List (String × Json)}
    (h : Fills s fs members t) (hfields : d.fields = done ++ fs)
    {before more after : List (String × Outline)} {k : String} {o p : Outline} (e : Ending)
    (hmembers : ofMembers members = before ++ (k, p) :: after) (hcut : Cut o p) :
    d.readMembers e (seen done) s (before ++ (k, o) :: more) = .error .malformed := by
  induction h generalizing done before with
  | nil s => simp [ofMembers] at hmembers
  | @cons s s' t f fs v members h _ ih =>
      cases before with
      | nil =>
          obtain ⟨hm, -⟩ := List.cons.inj hmembers
          obtain ⟨rfl, rfl⟩ := Prod.mk.inj hm
          rw [List.nil_append, readMembers_cons hfields hnames, h.cut o hcut]
          rfl
      | cons m before =>
          obtain ⟨rfl, htail⟩ := List.cons.inj hmembers
          rw [List.cons_append, readMembers_cons hfields hnames, h.ok, ok_bind]
          exact ih (done ++ [f]) (by simp [hfields]) htail

end Record

namespace Reads

theorem always {name : String} {r : Reader β} {put : β → σ → σ} {s : σ} {v : Json} {x : β}
    (h : Reads r v x) : Reads (fun o => (RecordField.always name r put).read o s) v (put x s) where
  whole := h.whole
  ok := by simp only [RecordField.always, h.ok]; rfl
  cut o ho := by simp only [RecordField.always, h.cut o ho]; rfl

theorem optional {name : String} {r : Reader β} {put : β → σ → σ} {s : σ} {v : Json} {x : β}
    (h : Reads r v x) :
    Reads (fun o => (RecordField.optional name r put).read o s) v (put x s) where
  whole := h.whole
  ok := by simp only [RecordField.optional, h.ok]; rfl
  cut o ho := by simp only [RecordField.optional, h.cut o ho]; rfl

/-- A record is read from an object that has a member for each field, in the order of the fields. -/
theorem record {d : Record σ} {members : List (String × Json)} {x : σ}
    (hnames : (d.fields.map (·.name)).Nodup) (h : Fills d.initial d.fields members x) :
    Reads d.read (.object members) x where
  whole := .object h.whole
  ok := Record.readMembers_fills [] hnames h rfl
  cut o ho := by
    obtain rfl | ⟨before, k, o', more, p, after, e, hmembers, hcut, rfl⟩ := ho.of_object
    · rfl
    · exact Record.readMembers_fills_cut [] hnames h rfl e hmembers hcut

/-- A tagged value is read from an object with the tag before the content. -/
theorem tagged {d : Tagged τ β} {label : String} {tag : τ} {v : Json} {x : β}
    (hlabel : d.known label = some tag) (h : Reads (d.content tag) v x) :
    Reads d.read (.object [(d.tagKey, .string label), (d.contentKey, v)]) x := by
  have htag : Reader.choice d.known (.string label) = .ok tag := by
    rw [Reader.choice, hlabel]
  have hread (ending : Ending) (o : Outline) (rest : List (String × Outline)) :
      d.read (.object ((d.tagKey, .string label) :: (d.contentKey, o) :: rest) ending) = (do
        d.finish ending (← d.content tag o) rest) := by
    rw [Tagged.read, Tagged.readMembers, if_pos rfl, htag, ok_bind, Tagged.afterTag, if_pos rfl]
  refine ⟨.object ?_, ?_, ?_⟩
  · simpa using ⟨Whole.string label, h.whole⟩
  · rw [ofJson, ofMembers, ofMembers, ofMembers, ofJson, hread, h.ok]
    rfl
  · intro o ho
    obtain rfl | ⟨before, k, o', more, p, after, e, hmembers, hcut, rfl⟩ := ho.of_object
    · rfl
    · rcases before with _ | ⟨m, _ | ⟨m', before⟩⟩
      · obtain ⟨hm, -⟩ := List.cons.inj hmembers
        obtain ⟨-, rfl⟩ := Prod.mk.inj hm
        cases hcut
      · obtain ⟨rfl, htail⟩ := List.cons.inj hmembers
        obtain ⟨hm, -⟩ := List.cons.inj htail
        obtain ⟨rfl, rfl⟩ := Prod.mk.inj hm
        have hbroken := hread e o' more
        rw [h.cut o' hcut] at hbroken
        exact hbroken
      · simp [ofMembers] at hmembers

end Reads

/-- What is read from a text is read from some outline. -/
theorem exists_read {r : Reader β} {text : List UInt8} {x : β} (h : decodeText r text = .ok x) :
    ∃ o, r o = .ok x := by
  obtain ⟨v, hv, h⟩ := bind_eq_ok.mp h
  refine ⟨_, hv.trans ?_⟩
  split at h
  · split at h
    · exact h
    · cases h
  · cases h

namespace RecordField

variable {P : σ → Prop} {name : String} {r : Reader β} {put : β → σ → σ}

/-- What holds of a record still does after the field has been read. -/
def Keeps (P : σ → Prop) (f : RecordField σ) : Prop :=
  ∀ o s s', P s → f.read o s = .ok s' → P s'

theorem always_keeps (h : ∀ o v s, r o = .ok v → P s → P (put v s)) :
    (always name r put).Keeps P := by
  intro o s s' hs hread
  obtain ⟨v, hv, hput⟩ := bind_eq_ok.mp hread
  cases hput
  exact h o v s hv hs

theorem optional_keeps (h : ∀ o v s, r o = .ok v → P s → P (put v s)) :
    (optional name r put).Keeps P :=
  show (always name r put).Keeps P from always_keeps h

end RecordField

namespace Record

variable {d : Record σ} {P : σ → Prop} {ending : Ending} {x : σ}

theorem readMembers_induct (hstep : ∀ f ∈ d.fields, f.Keeps P)
    {members : List (String × Outline)} {seen : List String} {s : σ} (hs : P s)
    (h : d.readMembers ending seen s members = .ok x) : P x := by
  induction members generalizing seen s with
  | nil =>
      rw [readMembers] at h
      obtain ⟨-, -, h⟩ := bind_eq_ok.mp h
      split at h
      · cases h
      · cases h
        exact hs
  | cons m members ih =>
      obtain ⟨k, o⟩ := m
      rw [readMembers] at h
      split at h
      · exact ih hs h
      · rename_i f hf
        split at h
        · cases h
        · obtain ⟨s', hs', h⟩ := bind_eq_ok.mp h
          exact ih (hstep f (List.mem_of_find?_eq_some hf) o s s' hs hs') h

theorem readItems_induct {fields : List (RecordField σ)}
    (hstep : ∀ f ∈ fields, f.Keeps P) {short : Bool}
    {items : List Outline} {s : σ} (hs : P s)
    (h : readItems short ending fields s items = .ok x) : P x := by
  induction fields generalizing items s with
  | nil =>
      cases items with
      | nil =>
          rw [readItems] at h
          obtain ⟨-, -, h⟩ := bind_eq_ok.mp h
          cases h
          exact hs
      | cons o items => cases h
  | cons f fields ih =>
      obtain ⟨hf, hlater⟩ := List.forall_mem_cons.mp hstep
      cases items with
      | nil =>
          unfold readItems at h
          split at h
          · cases h
          · split at h
            · cases h
              exact hs
            · cases h
      | cons o items =>
          rw [readItems] at h
          obtain ⟨s', hs', h⟩ := bind_eq_ok.mp h
          exact ih hlater (hf o s s' hs hs') h

/-- What holds of a record before anything is read into it, and stays so with every field, holds of
whatever is read. -/
theorem read_induct (hinit : P d.initial) (hstep : ∀ f ∈ d.fields, f.Keeps P) {o : Outline}
    (h : d.read o = .ok x) : P x := by
  unfold read at h
  split at h
  · exact readMembers_induct hstep hinit h
  · split at h
    · exact readItems_induct hstep hinit h
    · cases h
  · cases h

end Record

namespace Tagged

variable {d : Tagged τ β} {ending : Ending} {v x : β} {members : List (String × Outline)}

theorem finish_eq (h : d.finish ending v members = .ok x) : v = x := by
  induction members with
  | nil =>
      rw [finish] at h
      obtain ⟨-, -, h⟩ := bind_eq_ok.mp h
      cases h
      rfl
  | cons m members ih =>
      obtain ⟨k, o⟩ := m
      rw [finish] at h
      split at h
      · cases h
      · exact ih h

theorem afterTag_content {tag : τ} (h : d.afterTag ending tag members = .ok x) :
    ∃ o, d.content tag o = .ok x := by
  induction members with
  | nil => cases h
  | cons m members ih =>
      obtain ⟨k, o⟩ := m
      rw [afterTag] at h
      split at h
      · obtain ⟨v, hv, h⟩ := bind_eq_ok.mp h
        exact ⟨o, finish_eq h ▸ hv⟩
      · split at h
        · cases h
        · exact ih h

theorem afterContent_content {content : Outline}
    (h : d.afterContent ending content members = .ok x) :
    ∃ tag, d.content tag content = .ok x := by
  induction members with
  | nil => cases h
  | cons m members ih =>
      obtain ⟨k, o⟩ := m
      rw [afterContent] at h
      split at h
      · obtain ⟨tag, -, h⟩ := bind_eq_ok.mp h
        obtain ⟨v, hv, h⟩ := bind_eq_ok.mp h
        refine ⟨tag, ?_⟩
        cases hcontent : d.content tag content with
        | error f =>
            rw [hcontent] at hv
            cases hv
        | ok w =>
            rw [hcontent] at hv
            cases hv
            rw [finish_eq h]
      · split at h
        · cases h
        · exact ih h

theorem readMembers_content (h : d.readMembers ending members = .ok x) :
    ∃ tag content, d.content tag content = .ok x := by
  induction members with
  | nil => cases h
  | cons m members ih =>
      obtain ⟨k, o⟩ := m
      rw [readMembers] at h
      split at h
      · obtain ⟨tag, -, h⟩ := bind_eq_ok.mp h
        exact ⟨tag, afterTag_content h⟩
      · split at h
        · split at h
          · cases h
          · obtain ⟨tag, hcontent⟩ := afterContent_content h
            exact ⟨tag, o.kept, hcontent⟩
        · exact ih h

/-- Whatever is read of a tagged value is the content of a tag. -/
theorem exists_content {o : Outline} (h : d.read o = .ok x) :
    ∃ tag content, d.content tag content = .ok x := by
  unfold read at h
  split at h
  · exact readMembers_content h
  · split at h
    · cases h
    · obtain ⟨tag, -, h⟩ := bind_eq_ok.mp h
      cases h
    · obtain ⟨tag, -, h⟩ := bind_eq_ok.mp h
      obtain ⟨v, hv, h⟩ := bind_eq_ok.mp h
      refine ⟨tag, _, hv.trans ?_⟩
      dsimp only at h
      split at h
      · obtain ⟨_, _, hx⟩ := bind_eq_ok.mp h
        exact hx
      · cases h
  · cases h

end Tagged

end Quorum.Json
