import AttributeCodec.Attribute.Reader
import AttributeCodec.Attribute.Tree
import AttributeCodec.Datum.Decode
import AttributeCodec.Proofs.Attribute.Json.Members
import AttributeCodec.Proofs.Attribute.Json.Tagged

namespace AttributeCodec.Attribute

theorem Members.write_set_empty (setting : Members.Setting) :
    (({} : Members).set setting).write = Tagged.written setting.member setting.write := by
  have hnamed : ∀ (member : Member) (value : Json),
      named (fun key => if member = key then some value else none) = Tagged.written member value := by
    intro member value
    cases member <;> rfl
  rw [write_eq_named, ← hnamed]
  congr 1
  funext member
  rw [setting?_set, setting?_empty, apply_ite (Option.map Setting.write)]
  rfl

namespace Tagged

theorem write_toMembers (attr : Tagged) : attr.toMembers.write = attr.write := by
  induction attr with
  | step attr ih =>
    rw [toMembers_eq_set, Members.write_set_empty]
    cases attr with
    | list items =>
      have hitems : (items.map toMembers).map Members.write = items.map write := by
        rw [List.map_map]
        exact List.map_congr_left ih
      rw [write_list, setting, Members.Setting.write, hitems]
      rfl
    | map entries =>
      have hentries : (entries.map toMembers).map Members.write = entries.map write := by
        rw [Entries.map_map]
        exact Entries.map_congr_left (List.forall_mem_map.mp ih)
      rw [write_map, setting, Members.Setting.write, hentries]
      rfl
    | _ => rw [write]; rfl

end Tagged

def Alike {α β : Type} [Form α] [Form β] (attr : α) (other : β) : Prop :=
  tree attr = tree other ∧
    ∀ (hook : Hook) (type : DatumType), (reader attr).decode hook type = (reader other).decode hook type

theorem alike_of_view {α β : Type} [Form α] [Form β] {attr : α} {other : β}
    (h : Form.view attr = Form.view other) : Alike attr other := by
  constructor
  · rw [tree, tree, h]
  · intro hook type
    rw [reader, reader, h]

theorem exists_read_alike :
    (∀ attr : Tagged, ∃ other : Members, Members.read attr.write = .ok other ∧ Alike other attr) ∧
      ∀ attr : Members, (∀ node ∈ attr.nodes, node.settings.length = 1) →
        ∃ other : Tagged, Tagged.read attr.write = .ok other ∧ Alike other attr := by
  constructor
  · intro attr
    refine ⟨attr.toMembers, ?_, alike_of_view attr.view_toMembers⟩
    rw [← attr.write_toMembers]
    exact Members.read_write attr.toMembers
  · intro attr h
    obtain ⟨other, rfl⟩ := Tagged.exists_toMembers h
    refine ⟨other, ?_, alike_of_view other.view_toMembers.symm⟩
    rw [other.write_toMembers]
    exact Tagged.read_eq_ok_iff.mpr rfl

def setAndNull : Members :=
  { list? := some [{ map? := some (.ofList [("set", { binarySet? := some [[], [255]] }),
    ("null", { null? := some false })] (by decide)) }] }

theorem exists_read_alike_setAndNull :
    (∀ node ∈ setAndNull.nodes, node.settings.length = 1) ∧
      ∃ other : Tagged, Tagged.read setAndNull.write = .ok other ∧ Alike other setAndNull := by
  have hnodes : ∀ node ∈ setAndNull.nodes, node.settings.length = 1 := by decide
  exact ⟨hnodes, exists_read_alike.2 setAndNull hnodes⟩

end AttributeCodec.Attribute
