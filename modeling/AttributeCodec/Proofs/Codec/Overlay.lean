import AttributeCodec.Proofs.Entity.Overlay

/-! Decoding into an entity is all or nothing, and what is decoded lies over what was there. -/

namespace AttributeCodec

open Attribute (Form Members Tagged itemTree)

namespace Entity

structure Progress where
  entity : Entity
  decoded : SortedEntries Datum := .empty

def visit (hook : Hook) (name : String) (item : Reader) : Reader.Visit Progress Bool := do
  let progress ← get
  match item.decode hook (progress.entity.typeOf name) with
  | .ok datum =>
    MonadState.set { progress with decoded := progress.decoded.insert name datum }
    return true
  | .error fault => throw fault

def walk (hook : Hook) (reader : Reader) : Reader.Visit Progress Unit :=
  match reader.set? with
  | some set => throw (.unsupportedSet set)
  | none => do
    reader.visitMap (visit hook)
    modify fun progress => { progress with entity := progress.entity.overlay progress.decoded }

theorem run_visit (hook : Hook) (name : String) (item : Reader) (progress : Progress) :
    (visit hook name item).run.run progress =
      match item.decode hook (progress.entity.typeOf name) with
      | .ok datum => (.ok true, { progress with decoded := progress.decoded.insert name datum })
      | .error fault => (.error fault, progress) := by
  rw [visit, Decoding.run_get_bind]
  cases item.decode hook (progress.entity.typeOf name) <;> rfl

theorem run_visitFields (hook : Hook) {names : List String} (fields : Fields Reader names) (progress : Progress) :
    ∃ decoded, (Reader.visitFields (visit hook) fields).run.run progress =
        ((fun _ => ()) <$> fields.traverse fun name => Reader.decode hook (progress.entity.typeOf name),
          { progress with decoded := decoded }) ∧
      ∀ data, (fields.traverse fun name => Reader.decode hook (progress.entity.typeOf name)) = .ok data →
        decoded = data.toList.foldl (fun acc (name, datum) => acc.insert name datum) progress.decoded := by
  -- The progress changes with each entry that decodes; its entity, which the types are read from, does not.
  induction fields generalizing progress with
  | nil =>
    refine ⟨progress.decoded, rfl, ?_⟩
    rintro _ ⟨⟩
    rfl
  | cons name item rest ih =>
    rw [Reader.visitFields, Decoding.run_bind, run_visit]
    cases hitem : item.decode hook (progress.entity.typeOf name) with
    | error fault =>
      refine ⟨progress.decoded, ?_, ?_⟩
      · rw [Fields.traverse, hitem]
        rfl
      · intro data h
        rw [Fields.traverse, hitem] at h
        cases h
    | ok datum =>
      obtain ⟨decoded, hrun, hdecoded⟩ := ih { progress with decoded := progress.decoded.insert name datum }
      refine ⟨decoded, hrun.trans ?_, ?_⟩
      · rw [Fields.traverse, hitem]
        cases rest.traverse fun name => Reader.decode hook (progress.entity.typeOf name) <;> rfl
      · intro data h
        simp only [Fields.traverse, bind_eq_ok, pure_eq_ok] at h
        obtain ⟨_, hdatum, others, hothers, rfl⟩ := h
        cases hitem.symm.trans hdatum
        exact hdecoded others hothers

theorem run_walk (hook : Hook) (reader : Reader) (entity : Entity) :
    Prod.map id Progress.entity ((walk hook reader).run.run { entity := entity }) =
      (decode hook reader).run.run entity := by
  rw [run_decode_eq, walk, sources]
  cases reader.set? with
  | some set => rfl
  | none =>
    cases hmap : reader.map with
    | error fault =>
      simp only [Reader.visitMap, hmap]
      rfl
    | ok entries =>
      obtain ⟨names, distinct, fields⟩ := entries
      obtain ⟨decoded, hrun, hdecoded⟩ := run_visitFields hook fields { entity := entity }
      simp only [Reader.visitMap, hmap, Decoding.run_bind, hrun]
      have hsource : (Except.ok ⟨names, distinct, fields⟩ : Except Fault (Entries Reader)) >>=
          Reader.decodeEntries hook entity.typeOf = Reader.decodeEntries hook entity.typeOf ⟨names, distinct, fields⟩ :=
        rfl
      rw [hsource, Reader.decodeEntries, Reader.decodeFields_eq_traverse]
      cases htraverse : fields.traverse fun name => Reader.decode hook (entity.typeOf name) with
      | error fault => rfl
      | ok data =>
        rw [hdecoded data htraverse]
        rfl

end Entity

namespace Codec

variable (codec : Codec) (α : Type) [Form α]

structure DecodesAsOverlay : Prop where
  attr : ∀ attr : α, Entity.Overlays codec.hook (codec.decode attr) (Entity.sources (Attribute.reader attr))
  item : ∀ item : Entries α, Entity.Overlays codec.hook (codec.decodeItem item)
    (do Entity.sources (← itemTree item).reader)
  items : ∀ (item other : Entries α) (entity result : Entity),
    (do codec.decodeItem item; codec.decodeItem other : Decoding Entity Unit).run.run entity = (.ok (), result) ↔
      ∃ first second : Entity,
        (codec.decodeItem item).run.run { types := entity.types } = (.ok (), first) ∧
        (codec.decodeItem other).run.run { types := entity.types } = (.ok (), second) ∧
        entity.overlay (first.fields.overlay second.fields) = result

variable {α}

theorem overlays_decodeItem (item : Entries α) :
    Entity.Overlays codec.hook (codec.decodeItem item) (do Entity.sources (← itemTree item).reader) := by
  rw [decodeItem]
  cases itemTree item with
  | ok tree => exact Entity.overlays_decode codec.hook tree.reader
  | error fault => exact Entity.overlays_of_run fun _ => rfl

theorem decodesAsOverlay : codec.DecodesAsOverlay α where
  attr attr := Entity.overlays_decode codec.hook (Attribute.reader attr)
  item item := overlays_decodeItem codec item
  items item other _ _ := Entity.overlays_seq_iff (overlays_decodeItem codec item) (overlays_decodeItem codec other)

theorem decodings_overlay :
    (∀ reader, Entity.Overlays codec.hook (Storable.decode codec.hook reader) (Entity.sources reader)) ∧
      (∀ reader entity, Prod.map id Entity.Progress.entity
          ((Entity.walk codec.hook reader).run.run { entity := entity }) =
        (Storable.decode codec.hook reader).run.run entity) ∧
      codec.DecodesAsOverlay Members ∧ codec.DecodesAsOverlay Tagged :=
  ⟨Entity.overlays_decode codec.hook, Entity.run_walk codec.hook, decodesAsOverlay codec, decodesAsOverlay codec⟩

def spoiled : Entries Tagged := .ofList [("mood", .string "wild"), ("flag", .string "up")] (by decide)

def fitting : Entries Tagged := .ofList [("mood", .string ""), ("flag", .bool true)] (by decide)

def notebook : Entity :=
  (((Entity.set {} "mood" (.string "calm")).set "note" (.string "keep")).declare "mood" .string).declare "flag" .bool

theorem decodings_overlay_notebook :
    ((Codec.mk .timestamps none).decodeItem spoiled).run.run notebook =
        (.error (.mismatch "bool" "string"), notebook) ∧
      ∃ result, ((Codec.mk .timestamps none).decodeItem fitting).run.run notebook = (.ok (), result) ∧
        result.get? "mood" = some (.string "") ∧ result.get? "note" = some (.string "keep") ∧
        ((Codec.mk .timestamps none).decodeItem fitting).run.run result = (.ok (), result) := by
  obtain ⟨-, -, -, htagged⟩ := decodings_overlay ⟨.timestamps, none⟩
  have hmood : (Tree.string "wild").reader.decode .timestamps .string = .ok (.string "wild") := rfl
  refine ⟨?_, ?_⟩
  · refine (htagged.item spoiled).stopped notebook _ [("mood", (Tree.string "wild").reader)]
      ("flag", (Tree.string "up").reader) [] _ rfl rfl ?_ rfl
    exact List.forall_mem_singleton.mpr ⟨_, hmood⟩
  · have hrun : ((Codec.mk .timestamps none).decodeItem fitting).run.run notebook =
        (.ok (), ((notebook.set "mood" (.string "")).set "flag" (.bool true))) := rfl
    obtain ⟨entries, hentries, hoverlaid⟩ := ((htagged.item fitting).done_iff _ _).mp hrun
    cases hentries
    exact ⟨_, hrun, rfl, hoverlaid.other "note" (by decide), (htagged.item fitting).again _ _ hrun⟩

end Codec

end AttributeCodec
