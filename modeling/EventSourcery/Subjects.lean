import EventSourcery.Encryption

/-!
# The subjects of encrypted fields

Encryption takes the subject of a field from the attribute of the event, or from
the name of the stream when Python counts the attribute as false. Decryption takes
it from the dict that it is rewriting. The two agree, whatever the strategy, if and
only if the dict still shows every subject when its field is decrypted.
-/
namespace EventSourcery
open JsonText NestedDict EventRegistry Encryption

/-- Some encryption goes through: every field is in the dump and has a subject. -/
structure Encryptable (event : EventInstance) (streamId : StreamId) : Prop where
  undotted : Undotted event.dump
  fields : ∀ f ∈ encryptedFields event.type,
    (∃ value, At (parts f.1) event.dump value) ∧
      ∃ subjectId, encryptSubject event streamId f.1 = .ok subjectId

/-- Field by field, the subject stands under its own field in the clear: in none of the
fields that are still encrypted, and as it is when the fields before are read back. -/
def SubjectsShown (event : EventInstance) (streamId : StreamId) :
    List (String × Encrypted) → Dict → Prop
  | [], _ => True
  | (field, config) :: fields, data =>
      (∀ subjectField, subjectFiled field event.type = some subjectField →
        (∀ f ∈ (field, config) :: fields, Apart (parts subjectField) (parts f.1)) ∧
          (getItem subjectField data).map .json = encryptSubject event streamId field) ∧
      ∀ value, At (parts field) data value →
        SubjectsShown event streamId fields
          (put (parts field) (loaded (.str (serialized value))) data)

section Shown
variable {K : Type} {encryption : Encryption K} {event : EventInstance} {streamId : StreamId}
  {call : ℕ} {field subjectField : String} {config : Encrypted}
  {fields : List (String × Encrypted)} {data raw : Dict}

/-- Without a subject field, both sides fall back to the name of the stream. -/
theorem decryptSubject_of_none {subjectId : Subject}
    (hnone : subjectFiled field event.type = none)
    (hsubject : encryptSubject event streamId field = .ok subjectId) :
    decryptSubject event.type streamId field data = .ok subjectId := by
  simp only [encryptSubject, hnone, bind, Except.bind, Option.none_or] at hsubject
  cases hname : streamId.name with
  | none => simp [hname] at hsubject
  | some name =>
    simp only [hname, Option.map_some] at hsubject
    simp only [decryptSubject, hnone, hname, Option.getD_some]
    exact hsubject

theorem map_getItem_eq_ok {subjectId : Subject} :
    (getItem field data).map Subject.json = .ok subjectId ↔
      ∃ value, At (parts field) data value ∧ subjectId = .json value := by
  unfold getItem
  rw [← exists_congr fun value => and_congr_left' (getPath_eq_ok (v := value))]
  cases getPath (parts field) data with
  | error e => simp [Except.map]
  | ok value => simp [Except.map, eq_comm]

/-- A subject that stands in the data apart from the fields is found where it was. -/
theorem decryptSubject_of_clear {subjectId : Subject}
    (hclear : ∀ subjectField, subjectFiled field event.type = some subjectField →
      (∀ f ∈ fields, Apart (parts subjectField) (parts f.1)) ∧
        (getItem subjectField data).map .json = encryptSubject event streamId field)
    (hsubject : encryptSubject event streamId field = .ok subjectId)
    (h : encryption.encryptFields event streamId call fields data = .ok raw) :
    decryptSubject event.type streamId field raw = .ok subjectId := by
  cases hfield : subjectFiled field event.type with
  | none => exact decryptSubject_of_none hfield hsubject
  | some subjectField =>
    obtain ⟨happart, hitem⟩ := hclear subjectField hfield
    rw [hsubject, map_getItem_eq_ok] at hitem
    obtain ⟨value, hvalue, rfl⟩ := hitem
    simp only [decryptSubject, hfield, map_getItem_eq_ok]
    exact ⟨value, (at_encryptFields_of_apart (fun f hf => (happart f hf).symm) h).2 hvalue, rfl⟩

/-- Once the first field is decrypted for its subject, the dict is what encryption makes of
the other fields when the first one has been read back. -/
theorem encryptFields_cons (hstrategy : encryption.strategy.Inverts)
    (happart : ∀ f ∈ fields, Apart (parts field) (parts f.1))
    (h : encryption.encryptFields event streamId call ((field, config) :: fields) data = .ok raw) :
    ∃ subjectId value rest, encryptSubject event streamId field = .ok subjectId ∧
      At (parts field) data value ∧
      encryption.encryptFields event streamId (call + 1) fields
        (put (parts field) (loaded (.str (serialized value))) data) = .ok rest ∧
      (decryptSubject event.type streamId field raw = .ok subjectId →
        encryption.decryptField event.type streamId field config raw = .ok rest) := by
  obtain ⟨next, hnext, h⟩ := bind_eq_ok.1 h
  obtain ⟨subjectId, value, text, hsubject, hat, hencrypted, rfl⟩ := encryptField_eq_ok.1 hnext
  obtain ⟨key, hkey, htext⟩ := encryptValue_eq_ok.1 hencrypted
  obtain ⟨_, hencrypt, hdecrypt⟩ := hstrategy call (serialized value) key
  obtain rfl : text = _ := Except.ok.inj (htext.symm.trans hencrypt)
  obtain ⟨hstored, hrest⟩ := encryptFields_put (loaded (.str (serialized value))) happart
    (at_put hat) h
  rw [put_put hat] at hrest
  exact ⟨subjectId, value, _, hsubject, hat, hrest, fun hresolved =>
    decryptField_of_encrypted hresolved hkey hstored hdecrypt⟩

/-- Where the subjects show, decryption resolves them as encryption did. -/
theorem sameSubjects_of_shown (hstrategy : encryption.strategy.Inverts)
    (happart : fields.Pairwise fun a b => Apart (parts a.1) (parts b.1))
    (hshown : SubjectsShown event streamId fields data)
    (h : encryption.encryptFields event streamId call fields data = .ok raw) :
    encryption.SameSubjects event streamId fields raw := by
  induction fields generalizing call data raw with
  | nil => trivial
  | cons head fields ih =>
    obtain ⟨field, config⟩ := head
    obtain ⟨hhead, htail⟩ := List.pairwise_cons.1 happart
    obtain ⟨subjectId, value, rest, hsubject, hat, hrest, hdecrypt⟩ :=
      encryptFields_cons hstrategy hhead h
    have hresolved := decryptSubject_of_clear hshown.1 hsubject h
    refine ⟨hresolved.trans hsubject.symm, fun next hnext => ?_⟩
    rw [hdecrypt hresolved, Except.ok.injEq] at hnext
    exact hnext ▸ ih htail (hshown.2 value hat) hrest

end Shown

section Marking
variable {K : Type} [Inhabited K] {event : EventInstance} {streamId : StreamId} {call : ℕ}
  {field subjectField : String} {config : Encrypted} {fields : List (String × Encrypted)}
  {data raw : Dict}

/-- An encryption that only puts a mark before the text, with one key for everybody. -/
def marking (K : Type) [Inhabited K] (mark : Char) : Encryption K where
  strategy :=
    { encrypt := fun _ data _ => .ok (String.ofList (mark :: data.toList))
      decrypt := fun value _ =>
        match value with
        | .str text => .ok (.str (String.ofList text.toList.tail))
        | _ => .error .typeError }
  keyStorage := ⟨fun _ => .ok (some default)⟩

theorem marking_inverts (mark : Char) : (marking K mark).strategy.Inverts := by
  intro call data key
  exact ⟨_, rfl, by simp [marking]⟩

/-- What stands in a field is marked. -/
theorem marked_of_encryptFields {mark : Char}
    (happart : fields.Pairwise fun a b => Apart (parts a.1) (parts b.1))
    (h : (marking K mark).encryptFields event streamId call fields data = .ok raw)
    {f : String × Encrypted} (hf : f ∈ fields) :
    ∃ text : List Char, At (parts f.1) raw (.str (String.ofList (mark :: text))) := by
  obtain ⟨subjectId, key, value, text, hfield⟩ := encryptedAs_of_encryptFields happart h f hf
  obtain ⟨call, htext⟩ := hfield.sealed
  exact ⟨_, Except.ok.inj htext ▸ hfield.stored⟩

/-- A path to the same value under two marks is apart from the marked fields. -/
theorem apart_of_marked {p q : List String} {raw' : Dict} {value : Json} (hq : q ≠ [])
    (hvalue : At p raw value) (hvalue' : At p raw' value) {a b : Char} (hab : a ≠ b)
    {text text' : List Char} (htext : At q raw (.str (String.ofList (a :: text))))
    (htext' : At q raw' (.str (String.ofList (b :: text')))) : Apart p q := by
  have hne : Json.str (String.ofList (a :: text)) ≠ .str (String.ofList (b :: text')) := by
    simp [String.ofList_inj, hab]
  constructor
  · rintro ⟨rest, rfl⟩
    cases rest with
    | nil =>
      rw [List.append_nil] at htext htext'
      exact hne ((htext.unique hvalue).trans (hvalue'.unique htext'))
    | cons key rest =>
      obtain ⟨inner, hinner, -, hrest⟩ :=
        (at_append hvalue.ne_nil (List.cons_ne_nil key rest)).1 htext
      obtain ⟨inner', hinner', -, hrest'⟩ :=
        (at_append hvalue.ne_nil (List.cons_ne_nil key rest)).1 htext'
      obtain rfl : inner = inner' :=
        Json.obj.inj ((hinner.unique hvalue).trans (hvalue'.unique hinner'))
      exact hne (hrest.unique hrest')
  · rintro ⟨rest, rfl⟩
    cases rest with
    | nil =>
      rw [List.append_nil] at hvalue hvalue'
      exact hne ((htext.unique hvalue).trans (hvalue'.unique htext'))
    | cons key rest =>
      obtain ⟨inner, hinner, -, -⟩ := (at_append hq (List.cons_ne_nil key rest)).1 hvalue
      cases htext.unique hinner

variable (K call) in
/-- Where decryption resolves the subjects under two marks, they show. -/
theorem shown_of_sameSubjects (happart : fields.Pairwise fun a b => Apart (parts a.1) (parts b.1))
    (hfields : ∀ f ∈ fields, ∃ value, At (parts f.1) data value)
    (hsubjects : ∀ f ∈ fields, ∃ subjectId, encryptSubject event streamId f.1 = .ok subjectId)
    (hsame : ∀ mark raw, (marking K mark).encryptFields event streamId call fields data = .ok raw →
      (marking K mark).SameSubjects event streamId fields raw) :
    SubjectsShown event streamId fields data := by
  induction fields generalizing call data with
  | nil => trivial
  | cons head fields ih =>
    obtain ⟨field, config⟩ := head
    obtain ⟨hhead, htail⟩ := List.pairwise_cons.1 happart
    obtain ⟨subjectId, hsubject⟩ := hsubjects _ List.mem_cons_self
    have hkeys : ∀ mark, (marking K mark).HasKeys event streamId ((field, config) :: fields) := by
      intro mark f hf
      obtain ⟨subjectId, hsubject⟩ := hsubjects f hf
      exact ⟨subjectId, default, hsubject, rfl⟩
    have hraw : ∀ mark, ∃ raw, (marking K mark).encryptFields event streamId call
        ((field, config) :: fields) data = .ok raw := fun mark =>
      (decryptFields_encryptFields call (marking_inverts mark) happart (hkeys mark) hfields).imp
        fun raw h => h.1
    refine ⟨fun subjectField hfield => ?_, fun value hvalue => ?_⟩
    · obtain ⟨raw, h⟩ := hraw 'a'
      obtain ⟨raw', h'⟩ := hraw 'b'
      have hitem := (hsame 'a' raw h).1
      have hitem' := (hsame 'b' raw' h').1
      simp only [decryptSubject, hfield, hsubject, map_getItem_eq_ok] at hitem hitem'
      obtain ⟨value, hvalue, rfl⟩ := hitem
      obtain ⟨_, hvalue', hjson⟩ := hitem'
      obtain rfl := Subject.json.inj hjson
      have hclear : ∀ f ∈ (field, config) :: fields, Apart (parts subjectField) (parts f.1) := by
        intro f hf
        obtain ⟨text, htext⟩ := marked_of_encryptFields happart h hf
        obtain ⟨text', htext'⟩ := marked_of_encryptFields happart h' hf
        exact apart_of_marked htext.ne_nil hvalue hvalue' (by decide) htext htext'
      refine ⟨hclear, ?_⟩
      rw [hsubject, map_getItem_eq_ok]
      exact ⟨value, (at_encryptFields_of_apart (fun f hf => (hclear f hf).symm) h).1 hvalue, rfl⟩
    · refine @ih (call + 1) _ htail (fun f hf => ?_)
        (fun f hf => hsubjects f (List.mem_cons_of_mem _ hf)) fun mark rest hrest => ?_
      · obtain ⟨u, hu⟩ := hfields f (List.mem_cons_of_mem _ hf)
        exact ⟨u, (at_put_of_apart (hhead f hf) hvalue).2 hu⟩
      · obtain ⟨raw, h⟩ := hraw mark
        obtain ⟨_, held, rest', hsubject', hheld, hrest', hdecrypt⟩ :=
          encryptFields_cons (marking_inverts mark) hhead h
        obtain rfl := hheld.unique hvalue
        obtain rfl : rest' = rest := Except.ok.inj (hrest'.symm.trans hrest)
        obtain ⟨hresolved, htails⟩ := hsame mark raw h
        exact htails _ (hdecrypt (hresolved.trans hsubject'))

end Marking

/-- Whatever the strategy and the keys, decryption resolves the subjects that encryption
resolved, if and only if the event cannot be encrypted or its subjects show. -/
theorem sameSubjects_iff {K : Type} [Inhabited K] {event : EventInstance} {streamId : StreamId} :
    (∀ encryption : Encryption K, encryption.strategy.Inverts → ∀ raw,
      encryption.encrypt event streamId = .ok raw →
        encryption.SameSubjects event streamId (encryptedFields event.type) raw) ↔
      (Encryptable event streamId →
        SubjectsShown event streamId (encryptedFields event.type) event.dump) := by
  have happart := apart_encryptedFields event.type
  constructor
  · intro hsame hevent
    apply shown_of_sameSubjects K 0 happart
      (fun f hf => (hevent.fields f hf).1) (fun f hf => (hevent.fields f hf).2)
    intro mark raw h
    exact hsame (marking K mark) (marking_inverts mark) raw
      (encrypt_eq_ok.2 ⟨hevent.undotted, h⟩)
  · intro hshown encryption hstrategy raw h
    obtain ⟨hundotted, hfields⟩ := encrypt_eq_ok.1 h
    have hencryptable : Encryptable event streamId := by
      refine ⟨hundotted, fun f hf => ?_⟩
      obtain ⟨subjectId, key, value, text, hfield⟩ :=
        encryptedAs_of_encryptFields happart hfields f hf
      exact ⟨⟨value, hfield.held⟩, subjectId, hfield.subject⟩
    exact sameSubjects_of_shown hstrategy happart (hshown hencryptable) hfields

section Example

/-- An order of no customer. -/
def anonymousOrder : EventInstance where
  type := orderType
  dump := [("customer", .str ""), ("note", .str "fragile"),
    ("bill", .obj [("total", .int 42), ("currency", .str "EUR")])]
  getattr name := if name = "customer" then .ok (.json (.str "")) else .error .attributeError
  wellFormed := by simp [WellFormed, WellFormedFields]

/-- In the stream "Ann" the note is encrypted for Ann, and decrypted for nobody. -/
theorem sameSubjects_anonymous :
    annsKey.strategy.Inverts ∧
      ∃ raw, annsKey.encrypt anonymousOrder { uuid := 1, name := some "Ann" } = .ok raw ∧
        encryptSubject anonymousOrder { uuid := 1, name := some "Ann" } "note" =
          .ok (.json (.str "Ann")) ∧
        decryptSubject orderType { uuid := 1, name := some "Ann" } "note" raw =
          .ok (.json (.str "")) ∧
        ¬ annsKey.SameSubjects anonymousOrder { uuid := 1, name := some "Ann" }
          (encryptedFields orderType) raw := by
  refine ⟨backwards_inverts, _, rfl, rfl, rfl, fun hsame => ?_⟩
  have hequal : Subject.json (.str "") = .json (.str "Ann") := Except.ok.inj hsame.1
  simp at hequal

end Example

end EventSourcery
