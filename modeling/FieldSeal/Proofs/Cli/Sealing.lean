import FieldSeal.Cli.Directory
import FieldSeal.Proofs.Document
import FieldSeal.Proofs.Json.Ordered
import FieldSeal.Proofs.Nonces

/-!
# What one command seals the other opens

A command reads texts and leaves one. `Goes` says that an action goes through on a terminal, and
`goes_sealFile` takes a run of `encrypt` or `decrypt` apart into what it found (`Finds`), the
document that it made and where it put it (`Delivers`). Two runs are then a matter of the two
documents (`Proofs/Document`).

Between the two the sealed document is a text. That this text is read as the document again is a
property of the printer and the reader of JSON alone, and it is asked for here: the second run finds
the sealed document.
-/

set_option autoImplicit false

namespace FieldSeal.Cli

/-! ## Actions that go through -/

/-- The action goes through on a terminal, with a result and the terminal that it leaves. -/
def Goes {α : Type} (act : Action (StateM Terminal) α) (t : Terminal) (a : α) (t' : Terminal) :
    Prop :=
  act.run.run t = (.ok a, t')

section

variable {α β : Type} {nonces : Nat → Nonce} {t t' : Terminal}

@[simp] theorem goes_pure {a b : α} : Goes (pure a) t b t' ↔ b = a ∧ t' = t := by
  constructor
  · intro h
    cases h
    exact ⟨rfl, rfl⟩
  · rintro ⟨rfl, rfl⟩
    rfl

@[simp] theorem not_goes_throw {complaint : Complaint} {a : α} :
    ¬ Goes (throw complaint) t a t' := by
  intro h
  cases h

theorem goes_bind {act : Action (StateM Terminal) α} {next : α → Action (StateM Terminal) β}
    {b : β} : Goes (act >>= next) t b t' ↔ ∃ a u, Goes act t a u ∧ Goes (next a) u b t' := by
  show (ExceptT.bindCont next ((act.run.run t).1)).run (act.run.run t).2 = (.ok b, t') ↔ _
  constructor
  · intro h
    cases hfirst : act.run.run t with
    | mk result u =>
      rw [hfirst] at h
      cases result with
      | error complaint => cases h
      | ok a => exact ⟨a, u, hfirst, h⟩
  · rintro ⟨a, u, hfirst, hnext⟩
    rw [show act.run.run t = (.ok a, u) from hfirst]
    exact hnext

theorem goes_perform {act : StateM Terminal α} {a : α} :
    Goes (perform act) t a t' ↔ act.run t = (a, t') := by
  constructor
  · intro h
    cases h
    rfl
  · intro h
    show ((.ok (act.run t).1, (act.run t).2) : Except Complaint α × Terminal) = _
    rw [h]

/-! ## Reading files -/

theorem goes_load {what path content : String} :
    Goes (load (Terminal.host nonces) what path) t content t' ↔
      t.directory.read path = .ok content ∧ t' = t := by
  have hread : ((Terminal.host nonces).read path).run t
      = ((t.directory.read path).mapError FileFault.message, t) := rfl
  rw [load, goes_bind]
  constructor
  · rintro ⟨found, u, hfound, hnext⟩
    rw [goes_perform, hread] at hfound
    cases hfound
    cases hd : t.directory.read path with
    | error fault =>
      rw [hd] at hnext
      exact absurd hnext not_goes_throw
    | ok text =>
      rw [hd] at hnext
      obtain ⟨rfl, rfl⟩ := goes_pure.mp hnext
      exact ⟨rfl, rfl⟩
  · rintro ⟨hd, rfl⟩
    refine ⟨_, t', goes_perform.mpr hread, ?_⟩
    rw [hd]
    exact goes_pure.mpr ⟨rfl, rfl⟩

/-- What is done with the content of a file is done on the terminal as it was. -/
theorem goes_load_bind {what path : String} {next : String → Action (StateM Terminal) α} {a : α} :
    Goes (load (Terminal.host nonces) what path >>= next) t a t' ↔
      ∃ content, t.directory.read path = .ok content ∧ Goes (next content) t a t' := by
  rw [goes_bind]
  constructor
  · rintro ⟨content, u, hload, hnext⟩
    obtain ⟨hread, rfl⟩ := goes_load.mp hload
    exact ⟨content, hread, hnext⟩
  · rintro ⟨content, hread, hnext⟩
    exact ⟨content, t, goes_load.mpr ⟨hread, rfl⟩, hnext⟩

theorem goes_loadSchema {path : String} {s : Schema} :
    Goes (loadSchema (Terminal.host nonces) path) t s t' ↔
      ∃ text, t.directory.read path = .ok text ∧ Schema.ofText text = .ok s ∧ t' = t := by
  rw [loadSchema, goes_load_bind]
  refine exists_congr fun text => and_congr_right fun _ => ?_
  cases Schema.ofText text with
  | error e => simp
  | ok found => simp [eq_comm]

theorem goes_loadDocument {path : String} {document : Json} :
    Goes (loadDocument (Terminal.host nonces) path) t document t' ↔
      ∃ text, t.directory.read path = .ok text ∧ Json.ofText? text = some document ∧ t' = t := by
  rw [loadDocument, goes_load_bind]
  refine exists_congr fun text => and_congr_right fun _ => ?_
  cases Json.ofText? text with
  | none => simp
  | some found => simp [eq_comm]

theorem goes_loadSettings {path : String} {settings : Settings} :
    Goes (loadSettings (Terminal.host nonces) path) t settings t' ↔
      ∃ text, t.directory.read path = .ok text ∧ Settings.ofText? text = some settings ∧ t' = t := by
  rw [loadSettings, goes_load_bind]
  refine exists_congr fun text => and_congr_right fun _ => ?_
  cases Settings.ofText? text with
  | none => simp
  | some found => simp [eq_comm]

end

/-! ## Sealing a file -/

section

variable {nonces : Nat → Nonce} {t t' : Terminal}

theorem eq_of_goes_key (found : Except KeyError String) {phrase : String}
    (h : Goes (match found with
      | .ok key => pure key
      | .error e => complain e.message) t phrase t') : t' = t := by
  cases found with
  | error e => exact absurd h not_goes_throw
  | ok key => exact (goes_pure.mp h).2

/-- Looking for the passphrase leaves the terminal as it was. -/
theorem eq_of_goes_passphrase {key : KeyChoice} {phrase : String}
    (h : Goes (passphrase (Terminal.host nonces) key) t phrase t') : t' = t := by
  unfold passphrase at h
  obtain ⟨given, id, config⟩ := key
  cases given with
  | some given => exact (goes_pure.mp h).2
  | none =>
    cases id with
    | none => exact absurd h not_goes_throw
    | some id =>
      cases config with
      | none => exact eq_of_goes_key (KeySource.identity.key id) h
      | some path =>
        obtain ⟨settings, u, hsettings, hkey⟩ := goes_bind.mp h
        obtain ⟨_, -, -, rfl⟩ := goes_loadSettings.mp hsettings
        exact eq_of_goes_key (settings.keySource.key id) hkey

/-- The files hold the schema and the document. -/
structure Finds (t : Terminal) (files : Files) (s : Schema) (document : Json) : Prop where
  schema : ∃ text, t.directory.read files.schema = .ok text ∧ Schema.ofText text = .ok s
  document : ∃ text, t.directory.read files.input = .ok text ∧ Json.ofText? text = some document

theorem Finds.eq {files : Files} {s s' : Schema} {document document' : Json}
    (h : Finds t files s document) (h' : Finds t files s' document') :
    s' = s ∧ document' = document := by
  obtain ⟨⟨text, hread, hs⟩, content, hcontent, hd⟩ := h
  obtain ⟨⟨text', hread', hs'⟩, content', hcontent', hd'⟩ := h'
  obtain rfl := Except.ok.inj (hread.symm.trans hread')
  obtain rfl := Except.ok.inj (hcontent.symm.trans hcontent')
  exact ⟨Except.ok.inj (hs'.symm.trans hs), Option.some.inj (hd'.symm.trans hd)⟩

/-- The terminal with a text in the file for the result, or printed if there is none. -/
def Delivers (t : Terminal) (text : String) : Option String → Terminal → Prop
  | none, t' => t' = { t with printed := t.printed ++ (text ++ "\n") }
  | some path, t' => ∃ directory, t.directory.write path text = .ok directory ∧
    t' = { t with directory := directory }

theorem write_ok {path text : String} {directory : Directory}
    (h : t.directory.write path text = .ok directory) :
    ((Terminal.host nonces).write path text).run t = (.ok (), { t with directory := directory }) := by
  show StateT.run (MonadState.get >>= _) t = _
  rw [StateT.run_bind]
  show StateT.run _ t = _
  rw [show ((get : StateM Terminal Terminal).run t).1 = t from rfl, h]
  rfl

theorem write_error {path text : String} {fault : FileFault}
    (h : t.directory.write path text = .error fault) :
    ((Terminal.host nonces).write path text).run t = (.error fault.message, t) := by
  show StateT.run (MonadState.get >>= _) t = _
  rw [StateT.run_bind]
  show StateT.run _ t = _
  rw [show ((get : StateM Terminal Terminal).run t).1 = t from rfl, h]
  rfl

theorem goes_deliver {text : String} {output : Option String} :
    Goes (match output with
      | none => perform ((Terminal.host nonces).print (text ++ "\n"))
      | some path => do
        match ← perform ((Terminal.host nonces).write path text) with
        | .ok () => return ()
        | .error reason => complain reason) t () t' ↔ Delivers t text output t' := by
  cases output with
  | none =>
    dsimp only
    rw [goes_perform, Delivers]
    constructor
    · intro h
      cases h
      rfl
    · rintro rfl
      rfl
  | some path =>
    dsimp only
    rw [goes_bind, Delivers]
    cases hw : t.directory.write path text with
    | error fault =>
      constructor
      · rintro ⟨result, u, hresult, hnext⟩
        rw [goes_perform, write_error hw] at hresult
        cases hresult
        exact absurd hnext not_goes_throw
      · rintro ⟨_, h, -⟩
        cases h
    | ok directory =>
      constructor
      · rintro ⟨result, u, hresult, hnext⟩
        rw [goes_perform, write_ok hw] at hresult
        cases hresult
        exact ⟨directory, rfl, (goes_pure.mp hnext).2⟩
      · rintro ⟨_, h, rfl⟩
        cases h
        exact ⟨_, _, goes_perform.mpr (write_ok hw), goes_pure.mpr ⟨rfl, rfl⟩⟩

/-- **A run that goes through**, taken apart: the passphrase, the schema and the document are found,
and the document that is made of them is delivered. -/
theorem goes_sealFile {direction : Direction} {files : Files} {key : KeyChoice} :
    Goes (sealFile (Terminal.host nonces) direction files key) t () t' ↔
      ∃ phrase s document result learned,
        Goes (passphrase (Terminal.host nonces) key) t phrase t ∧ Finds t files s document ∧
          s.sealDocument ((TextCipher.ofPassphrase phrase).withNonces nonces) direction document
            .empty = .ok (result, learned) ∧
          Delivers t result.pretty files.output t' := by
  have hnonces (count : Nat) : Goes (perform ((Terminal.host nonces).nonces count)) t nonces t :=
    goes_perform.mpr rfl
  unfold sealFile
  constructor
  · intro h
    obtain ⟨phrase, t₁, hkey, hafter⟩ := goes_bind.mp h
    obtain rfl : t₁ = t := eq_of_goes_passphrase hkey
    obtain ⟨s, t₂, hschema, hrest⟩ := goes_bind.mp hafter
    obtain ⟨text, hread, hs, rfl⟩ := goes_loadSchema.mp hschema
    obtain ⟨document, t₃, hdocument, hlast⟩ := goes_bind.mp hrest
    obtain ⟨text', hread', hd, rfl⟩ := goes_loadDocument.mp hdocument
    obtain ⟨nonces', t₄, hgiven, hend⟩ := goes_bind.mp hlast
    cases goes_perform.mp hgiven
    cases hsealed : s.sealDocument ((TextCipher.ofPassphrase phrase).withNonces nonces) direction
        document .empty with
    | error e =>
      rw [hsealed] at hend
      exact absurd hend not_goes_throw
    | ok p =>
      obtain ⟨result, learned⟩ := p
      rw [hsealed] at hend
      exact ⟨phrase, s, document, result, learned, hkey, ⟨⟨text, hread, hs⟩, text', hread', hd⟩,
        hsealed, goes_deliver.mp hend⟩
  · rintro ⟨phrase, s, document, result, learned, hkey, hfinds, hsealed, hdelivers⟩
    obtain ⟨⟨text, hread, hs⟩, text', hread', hd⟩ := hfinds
    refine goes_bind.mpr ⟨phrase, t, hkey, goes_bind.mpr ⟨s, t, ?_, goes_bind.mpr ⟨document, t, ?_,
      goes_bind.mpr ⟨nonces, t, hnonces _, ?_⟩⟩⟩⟩
    · exact goes_loadSchema.mpr ⟨text, hread, hs, rfl⟩
    · exact goes_loadDocument.mpr ⟨text', hread', hd, rfl⟩
    · rw [hsealed]
      exact goes_deliver.mpr hdelivers

end

/-- **A run is decided by the nonces that it has asked for**, as many as the document has texts. It
does not matter what a host makes of the others. -/
theorem goes_sealFile_congr {nonces nonces' : Nat → Nonce} {t t' : Terminal} {direction : Direction}
    {files : Files} {key : KeyChoice} {s : Schema} {document : Json}
    (hfinds : Finds t files s document) (h : ∀ n < document.texts, nonces n = nonces' n)
    (hgoes : Goes (sealFile (Terminal.host nonces) direction files key) t () t') :
    Goes (sealFile (Terminal.host nonces') direction files key) t () t' := by
  obtain ⟨phrase, s', document', result, learned, hkey, hfound, hsealed, hdelivers⟩ :=
    goes_sealFile.mp hgoes
  obtain ⟨rfl, rfl⟩ := hfinds.eq hfound
  obtain ⟨⟨_, -, hs⟩, -⟩ := hfinds
  have hcongr := Schema.sealDocument_congr (Schema.parsed_of_ofText hs).wellFormed
    (TextCipher.ofPassphrase phrase) direction FieldIndex.sound_empty h
  rw [hsealed] at hcongr
  obtain ⟨⟨_, learned'⟩, hsealed', rfl⟩ := map_eq_ok.mp hcongr.symm
  exact goes_sealFile.mpr ⟨phrase, s', document', _, learned', hkey, hfound, hsealed', hdelivers⟩

/-- **What `encrypt` seals `decrypt` opens.** If `encrypt` goes through on a schema in which the
members of each union have names of their own, it delivers a sealed document. Wherever `decrypt` then
finds the schema, the sealed document and the same passphrase, it delivers the plain document of the
value that was sealed, which is read as this value again. -/
theorem decrypt_of_encrypt {nonces : Nat → Nonce} {t t' : Terminal} {files : Files}
    {key : KeyChoice} {s : Schema} {document : Json} (hfinds : Finds t files s document)
    (hn : s.NamesApart)
    (h : Goes ((Command.encrypt files key).run (Terminal.host nonces)) t () t') :
    ∃ v sealed restored, s.fromJson .plain document = .ok v ∧ s.toJson .plain v = .ok restored ∧
      s.fromJson .plain restored = .ok v ∧ Delivers t sealed.pretty files.output t' ∧
      ∀ (nonces' : Nat → Nonce) (u u' : Terminal) (files' : Files) (key' : KeyChoice),
        (∀ phrase, Goes (passphrase (Terminal.host nonces) key) t phrase t →
          Goes (passphrase (Terminal.host nonces') key') u phrase u) →
        Finds u files' s sealed → Delivers u restored.pretty files'.output u' →
        Goes ((Command.decrypt files' key').run (Terminal.host nonces')) u () u' := by
  obtain ⟨phrase, s', document', sealed, learned, hkey, hfound, hsealed, hdelivers⟩ :=
    goes_sealFile.mp h
  obtain ⟨rfl, rfl⟩ := hfinds.eq hfound
  obtain ⟨⟨_, -, hs⟩, _, -, hd⟩ := hfinds
  have hparsed := Schema.parsed_of_ofText hs
  obtain ⟨v, hread, hrun, hwritten, -⟩ := Schema.sealDocument_eq_ok.mp hsealed
  have hfits := Schema.fits_of_fromJson (Json.ordered_of_ofText? hd) hread
  obtain ⟨restored, hrestored⟩ :=
    Schema.exists_toJson_plain (Walk.shape_run FieldIndex.sound_empty s' v) hwritten
  refine ⟨v, sealed, restored, hread, hrestored, Schema.read_plain_of_fits hparsed hn hfits hrestored,
    hdelivers, ?_⟩
  intro nonces' u u' files' key' hsame hfinds' hdelivers'
  obtain ⟨learned', hopened⟩ := hfits.open_sealed hparsed hn nonces' FieldIndex.sound_empty
    FieldIndex.sound_empty hrun hwritten hrestored
  exact goes_sealFile.mpr ⟨phrase, s', sealed, restored, learned', hsame phrase hkey, hfinds', hopened,
    hdelivers'⟩

end FieldSeal.Cli
