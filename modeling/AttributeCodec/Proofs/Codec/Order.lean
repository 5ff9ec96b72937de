import AttributeCodec.Proofs.Entity.Overlay
import AttributeCodec.Proofs.Reader.Reordered

/-! The order in which maps hand out their entries is not to be told from what comes of them. -/

namespace AttributeCodec

open Attribute (Form Orderable Members Tagged itemTree)
open Attribute.Orderable (Reordered)

namespace Entity

inductive SameOutcome (first second : Decoding Entity Unit) (entity : Entity) : Prop
  | done {result : Entity} (first : first.run.run entity = (.ok (), result))
      (second : second.run.run entity = (.ok (), result))
  | kept {fault fault' : Fault} (first : first.run.run entity = (.error fault, entity))
      (second : second.run.run entity = (.error fault', entity))

theorem agree_sources {reader other : Reader} (h : reader.Reordered other) :
    Agree (Entries.Alike Reader.Reordered) (sources reader) (sources other) := by
  cases h with
  | same reader => exact .refl (Entries.Alike.refl Reader.Reordered.same) _
  | list => exact .refl (Entries.Alike.refl Reader.Reordered.same) _
  | @map reader entries others hmap names value =>
    have hset : (reader.withChildren reader.list (.ok others)).set? = reader.set? := rfl
    rw [sources, sources, hset]
    cases reader.set? with
    | some set => exact .error _ _
    | none =>
      rw [hmap]
      exact .ok ⟨names, value⟩

theorem sameOutcome_of_agree {first second : Decoding Entity Unit} {entity : Entity}
    {data data' : Except Fault (SortedEntries Datum)} (h : Agree Eq data data')
    (hfirst : first.run.run entity = entity.settled data) (hsecond : second.run.run entity = entity.settled data') :
    SameOutcome first second entity := by
  cases h with
  | ok h =>
    subst h
    exact .done hfirst hsecond
  | error fault fault' => exact .kept hfirst hsecond

theorem sameOutcome_decode {hook : Hook} (hshallow : hook.Shallow) {reader other : Reader}
    (h : reader.Reordered other) (entity : Entity) :
    SameOutcome (decode hook reader) (decode hook other) entity := by
  refine sameOutcome_of_agree ?_ (run_decode_eq hook reader entity) (run_decode_eq hook other entity)
  refine (agree_sources h).bind fun _ _ hentries => ?_
  exact Reader.agree_decodeEntries (hentries.imp fun _ _ hitem => hitem.agree_decode hshallow)

end Entity

def Datum.FinishesAs (hook : Hook) (datum : Datum) (outcome : Except Fault Tree) : Prop :=
  ∃ slot, (Slot.unset.run (datum.encode hook false).1).Reordered slot ∧
    outcome = do (datum.encode hook false).2; slot.finish

theorem Datum.finishesAs_toTree (hook : Hook) (datum : Datum) : datum.FinishesAs hook (datum.toTree hook) :=
  ⟨_, .same _, rfl⟩

theorem Datum.FinishesAs.agree {hook : Hook} {datum : Datum} {outcome outcome' : Except Fault Tree}
    (h : datum.FinishesAs hook outcome) (h' : datum.FinishesAs hook outcome') :
    Agree Tree.Reordered outcome outcome' := by
  obtain ⟨slot, hslot, rfl⟩ := h
  obtain ⟨slot', hslot', rfl⟩ := h'
  cases (datum.encode hook false).2 with
  | error fault => exact .error fault fault
  | ok =>
    have hback : Agree Tree.Reordered slot.finish (Slot.unset.run (datum.encode hook false).1).finish :=
      hslot.agree_finish.symm fun _ _ => Tree.Reordered.symm
    show Agree Tree.Reordered slot.finish slot'.finish
    exact hback.trans hslot'.agree_finish fun _ _ _ => .trans

namespace KeyNames

variable {δ : Type} [Storable δ] {hook : Hook} {stored : δ} {names : List String}

def FieldAs (hook : Hook) (stored : δ) (name : String) (outcome : Except Fault Tree) : Prop :=
  (∃ fault, Storable.field stored name = .error fault ∧ outcome = .error fault) ∨
    ∃ datum, Storable.field stored name = .ok datum ∧ datum.FinishesAs hook outcome

/-- Outcomes of gathering the fields of these names, each encoded by itself with the maps of its slot in some
order. -/
inductive Gathers (hook : Hook) (stored : δ) : Entries Tree → List String → Except Fault (Entries Tree) → Prop
  | done (trees : Entries Tree) : Gathers hook stored trees [] (.ok trees)
  | fault {trees : Entries Tree} {name : String} {names : List String} {fault : Fault}
      (field : FieldAs hook stored name (.error fault)) : Gathers hook stored trees (name :: names) (.error fault)
  | next {trees : Entries Tree} {name : String} {names : List String} {tree : Tree}
      {outcome : Except Fault (Entries Tree)} (field : FieldAs hook stored name (.ok tree))
      (rest : Gathers hook stored (trees.update name fun _ => tree) names outcome) :
      Gathers hook stored trees (name :: names) outcome

theorem FieldAs.agree {name : String} {outcome outcome' : Except Fault Tree} (h : FieldAs hook stored name outcome)
    (h' : FieldAs hook stored name outcome') : Agree Tree.Reordered outcome outcome' := by
  rcases h with ⟨fault, hfield, rfl⟩ | ⟨datum, hfield, hfinish⟩
  · rcases h' with ⟨fault', -, rfl⟩ | ⟨datum', hfield', -⟩
    · exact .error fault fault'
    · cases hfield.symm.trans hfield'
  · rcases h' with ⟨fault', hfield', -⟩ | ⟨datum', hfield', hfinish'⟩
    · cases hfield.symm.trans hfield'
    · cases hfield.symm.trans hfield'
      exact hfinish.agree hfinish'

theorem Gathers.agree {trees others : Entries Tree} {outcome outcome' : Except Fault (Entries Tree)}
    (h : Gathers hook stored trees names outcome) (h' : Gathers hook stored others names outcome')
    (halike : trees.Alike Tree.Reordered others) : Agree (Entries.Alike Tree.Reordered) outcome outcome' := by
  -- The trees so far may differ in order too, so the induction is over any that are alike.
  induction h generalizing others with
  | done trees =>
    cases h'
    exact .ok halike
  | fault field =>
    cases h' with
    | fault field' => exact .error _ _
    | next field' => cases field.agree field'
  | next field _ ih =>
    cases h' with
    | fault field' => cases field.agree field'
    | next field' rest' =>
      cases field.agree field' with
      | ok htree => exact ih rest' (halike.update _ htree)

theorem gathers_treesOf (hook : Hook) (stored : δ) (trees : Entries Tree) (names : List String) :
    Gathers hook stored trees names (treesOf hook stored trees names) := by
  induction names generalizing trees with
  | nil => exact .done trees
  | cons name names ih =>
    rw [treesOf]
    cases hfield : Storable.field stored name with
    | error fault => exact .fault (.inl ⟨fault, hfield, rfl⟩)
    | ok datum =>
      have hfinish := datum.finishesAs_toTree hook
      show Gathers hook stored trees (name :: names)
        (datum.toTree hook >>= fun tree => treesOf hook stored (trees.update name fun _ => tree) names)
      cases htree : datum.toTree hook with
      | error fault => exact .fault (.inr ⟨datum, hfield, htree ▸ hfinish⟩)
      | ok tree => exact .next (.inr ⟨datum, hfield, htree ▸ hfinish⟩) (ih _)

def AttributesAs {α : Type} [Form α] (keys : KeyNames) (hook : Hook) (stored : δ)
    (outcome : Except Fault (Entries α)) : Prop :=
  (∃ fault, Gathers hook stored .empty keys.names (.error fault) ∧ outcome = .error fault) ∨
    ∃ trees others, Gathers hook stored .empty keys.names (.ok trees) ∧ trees.Alike Tree.Reordered others ∧
      outcome = Tree.attributeEntries others

theorem attributesAs_attributes {α : Type} [Form α] (keys : KeyNames) (hook : Hook) (stored : δ) :
    keys.AttributesAs hook stored (keys.attributes hook stored : Except Fault (Entries α)) := by
  have hgathers := gathers_treesOf hook stored .empty keys.names
  rw [attributes, trees]
  cases htrees : treesOf hook stored .empty keys.names with
  | error fault => exact .inl ⟨fault, htrees ▸ hgathers, rfl⟩
  | ok trees => exact .inr ⟨trees, trees, htrees ▸ hgathers, .refl Tree.Reordered.same trees, rfl⟩

theorem AttributesAs.agree {α : Type} [Form α] [Orderable α] {keys : KeyNames}
    {outcome outcome' : Except Fault (Entries α)} (h : keys.AttributesAs hook stored outcome)
    (h' : keys.AttributesAs hook stored outcome') : Agree (Entries.Alike Reordered) outcome outcome' := by
  have hempty : Entries.empty.Alike Tree.Reordered Entries.empty := .refl Tree.Reordered.same _
  rcases h with ⟨fault, hfirst, rfl⟩ | ⟨trees, others, hfirst, hothers, rfl⟩
  · rcases h' with ⟨fault', -, rfl⟩ | ⟨trees', -, hsecond, -⟩
    · exact .error fault fault'
    · cases hfirst.agree hsecond hempty
  · rcases h' with ⟨fault', hsecond, -⟩ | ⟨trees', others', hsecond, hothers', rfl⟩
    · cases hfirst.agree hsecond hempty
    · cases hfirst.agree hsecond hempty with
      | ok htrees =>
        refine Tree.agree_attributeEntries ?_
        have hback : others.Alike Tree.Reordered trees := hothers.symm fun _ _ => .symm
        have hforth : trees.Alike Tree.Reordered others' := htrees.trans hothers' fun _ _ _ => .trans
        exact hback.trans hforth fun _ _ _ => .trans

end KeyNames

namespace Codec

variable (α : Type) [Form α] [Orderable α]

structure OrderFree : Prop where
  render : ∀ tree other : Tree, tree.Reordered other →
    Agree (Reordered (α := α)) tree.toAttribute other.toAttribute
  renderItem : ∀ tree other : Tree, tree.Reordered other →
    Agree (Entries.Alike (Reordered (α := α))) tree.toItem other.toItem
  parse : ∀ attr other : α, Reordered attr other →
    Agree Tree.Reordered (Attribute.tree attr) (Attribute.tree other)
  parseItem : ∀ item other : Entries α, item.Alike Reordered other →
    Agree Tree.Reordered (itemTree item) (itemTree other)
  decode : ∀ hook, hook = .none ∨ hook = .timestamps → ∀ attr other : α, Reordered attr other → ∀ type,
    Agree Eq ((Attribute.reader attr).decode hook type) ((Attribute.reader other).decode hook type)
  decodeEntity : ∀ hook, hook = .none ∨ hook = .timestamps → ∀ attr other : α, Reordered attr other → ∀ entity,
    Entity.SameOutcome (Entity.decode hook (Attribute.reader attr)) (Entity.decode hook (Attribute.reader other)) entity
  key : ∀ {δ : Type} [Storable δ] (stored : δ) hook (keys : KeyNames) (outcome outcome' : Except Fault (Entries α)),
    keys.AttributesAs hook stored outcome → keys.AttributesAs hook stored outcome' →
      Agree (Entries.Alike Reordered) outcome outcome'

theorem orderFree : OrderFree α where
  render _ _ h := h.agree_toAttribute
  renderItem _ _ h := h.agree_toItem
  parse _ _ h := Attribute.agree_tree h
  parseItem _ _ h := Attribute.agree_itemTree h
  decode _ hhook _ _ h type := (Orderable.view h).reader.agree_decode (Hook.shallow_of_standard hhook) type
  decodeEntity _ hhook _ _ h entity :=
    Entity.sameOutcome_decode (Hook.shallow_of_standard hhook) (Orderable.view h).reader entity
  key _ _ _ _ _ h h' := h.agree h'

structure TreesOrderFree : Prop where
  finish : ∀ slot other : Slot, slot.Reordered other → Agree Tree.Reordered slot.finish other.finish
  decode : ∀ hook, hook = .none ∨ hook = .timestamps → ∀ tree other : Tree, tree.Reordered other → ∀ type,
    Agree Eq (tree.reader.decode hook type) (other.reader.decode hook type)
  decodeEntity : ∀ hook, hook = .none ∨ hook = .timestamps → ∀ tree other : Tree, tree.Reordered other → ∀ entity,
    Entity.SameOutcome (Entity.decode hook tree.reader) (Entity.decode hook other.reader) entity
  keyTrees : ∀ {δ : Type} [Storable δ] (stored : δ) hook (keys : KeyNames) outcome outcome',
    KeyNames.Gathers hook stored .empty keys.names outcome → KeyNames.Gathers hook stored .empty keys.names outcome' →
      Agree (Entries.Alike Tree.Reordered) outcome outcome'

theorem treesOrderFree : TreesOrderFree where
  finish _ _ h := h.agree_finish
  decode _ hhook _ _ h type := h.reader.agree_decode (Hook.shallow_of_standard hhook) type
  decodeEntity _ hhook _ _ h entity := Entity.sameOutcome_decode (Hook.shallow_of_standard hhook) h.reader entity
  keyTrees _ _ _ _ _ h h' := h.agree h' (.refl Tree.Reordered.same _)

theorem order_free :
    OrderFree Members ∧ OrderFree Tagged ∧ TreesOrderFree ∧
      ∀ {δ : Type} [Storable δ] (stored : δ) hook (keys : KeyNames),
        KeyNames.Gathers hook stored .empty keys.names (keys.trees hook stored) ∧
          keys.AttributesAs hook stored (keys.attributes hook stored : Except Fault (Entries Members)) ∧
          keys.AttributesAs hook stored (keys.attributes hook stored : Except Fault (Entries Tagged)) :=
  ⟨orderFree Members, orderFree Tagged, treesOrderFree, fun stored hook keys =>
    ⟨KeyNames.gathers_treesOf hook stored .empty keys.names, keys.attributesAs_attributes hook stored,
      keys.attributesAs_attributes hook stored⟩⟩

def faulty : Entries Tagged := .ofList [("few", .numberSet ["1"]), ("flag", .bool true)] (by decide)

def faultyTurned : Entries Tagged := .ofList [("flag", .bool true), ("few", .numberSet ["1"])] (by decide)

def sound : Entries Tagged := .ofList [("text", .string "a"), ("flag", .bool true)] (by decide)

def soundTurned : Entries Tagged := .ofList [("flag", .bool true), ("text", .string "a")] (by decide)

theorem order_free_turned :
    (Attribute.reader (Tagged.map faulty)).decode .timestamps (.map .string) = .error (.unsupportedSet .number) ∧
      (Attribute.reader (Tagged.map faultyTurned)).decode .timestamps (.map .string) =
        .error (.mismatch "string" "bool") ∧
      Entity.SameOutcome (Entity.decode .timestamps (Attribute.reader (Tagged.map faulty)))
        (Entity.decode .timestamps (Attribute.reader (Tagged.map faultyTurned))) {} ∧
      (Attribute.reader (Tagged.list [.null true, .map soundTurned])).decode .timestamps .any =
        (Attribute.reader (Tagged.list [.null true, .map sound])).decode .timestamps .any := by
  obtain ⟨-, hfree, -, -⟩ := order_free
  have hfaulty : Reordered (Tagged.map faulty) (.map faultyTurned) :=
    Orderable.map (.of_perm Orderable.same (.swap ..))
  have hsound : Reordered (Tagged.map sound) (.map soundTurned) :=
    Orderable.map (.of_perm Orderable.same (.swap ..))
  have hlist : Reordered (Tagged.list [.null true, .map sound]) (.list [.null true, .map soundTurned]) :=
    Orderable.list (.cons (Orderable.same _) (.cons hsound .nil))
  refine ⟨rfl, rfl, hfree.decodeEntity .timestamps (.inr rfl) _ _ hfaulty {}, ?_⟩
  obtain ⟨datum, hturned, rfl⟩ := (hfree.decode .timestamps (.inr rfl) _ _ hlist .any).exists_ok rfl
  exact hturned

end Codec

end AttributeCodec
