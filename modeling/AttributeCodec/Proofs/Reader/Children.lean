import AttributeCodec.Attribute.Reader
import AttributeCodec.Proofs.Attribute.Precedence
import AttributeCodec.Proofs.Attribute.View
import AttributeCodec.Proofs.Reader.Course
import AttributeCodec.Proofs.Tree.Parts

namespace AttributeCodec

open Attribute (Members Tagged Form View)

variable {α : Type}

theorem toOption_eq_some_iff {ε : Type} {x : Except ε α} {a : α} : x.toOption = some a ↔ x = .ok a := by
  cases x <;> simp [Except.toOption]

theorem exists_error_of_toOption {ε : Type} {x : Except ε α} (h : x.toOption = none) : ∃ fault, x = .error fault := by
  cases x with
  | error fault => exact ⟨fault, rfl⟩
  | ok a => cases h

structure Entries.Enumerates (entries : Entries α) (enumeration : List (String × α)) : Prop where
  names : (enumeration.map Prod.fst).Nodup
  length : enumeration.length = entries.size
  mem_iff : ∀ name value, (name, value) ∈ enumeration ↔ entries.get? name = some value

theorem Entries.enumerates_toList (entries : Entries α) : entries.Enumerates entries.toList where
  names := entries.nodup_map_fst_toList
  length := by rw [size, ← entries.map_fst_toList, List.length_map]
  mem_iff _ _ := get?_eq_some_iff.symm

namespace Reader

section Walks

variable {σ : Type} {reader : Reader} {items : List Reader} {entries : Entries Reader} {fault : Fault}

theorem map_fst_numbered (items : List Reader) : (numbered items).map Prod.fst = List.range items.length := by
  rw [numbered, List.map_map, List.range_eq_range']
  exact List.zipIdx_map_snd 0 items

theorem getElem?_of_mem_numbered {child : Nat × Reader} (h : child ∈ numbered items) :
    items[child.1]? = some child.2 := by
  obtain ⟨pair, hpair, rfl⟩ := List.mem_map.mp h
  exact List.mem_zipIdx_iff_getElem?.mp hpair

structure ItemCalls (items : List Reader) (calls : List (Nat × Reader)) : Prop where
  indices : calls.map Prod.fst = List.range calls.length
  item : ∀ call ∈ calls, items[call.1]? = some call.2

theorem Course.itemCalls {visit : Nat → Reader → Visit σ Bool} {state final : σ} {calls : List (Nat × Reader)}
    {result : Except Fault Unit} (h : Course visit (numbered items) state calls result final) :
    ItemCalls items calls where
  indices := by
    have htake : calls = (numbered items).take calls.length := List.prefix_iff_eq_take.mp h.initial
    have hlength : calls.length ≤ items.length := by
      simpa [numbered] using h.initial.length_le
    rw [htake, List.map_take, map_fst_numbered, List.take_range, ← htake, Nat.min_eq_left hlength]
  item call hcall := getElem?_of_mem_numbered (h.initial.subset hcall)

theorem exists_visitList (h : reader.list = .ok items) (visit : Nat → Reader → Visit σ Bool) (state : σ) :
    ∃ calls result final, Makes reader.visitList visit state calls result final ∧ ItemCalls items calls ∧
      Course visit (numbered items) state calls result final := by
  obtain ⟨calls, result, final, hcourse⟩ := exists_course visit (numbered items) state
  refine ⟨calls, result, final, hcourse.makes fun visit => ?_, hcourse.itemCalls, hcourse⟩
  rw [visitList, h]
  exact visitFrom_eq_visitEach visit 0 items

theorem exists_visitMap (h : reader.map = .ok entries) (visit : String → Reader → Visit σ Bool) (state : σ) :
    ∃ calls result final, Makes reader.visitMap visit state calls result final ∧
      Course visit entries.toList state calls result final := by
  obtain ⟨calls, result, final, hcourse⟩ := exists_course visit entries.toList state
  refine ⟨calls, result, final, hcourse.makes fun visit => ?_, hcourse⟩
  rw [visitMap, h]
  exact visitFields_eq_visitEach visit entries.fields

theorem makes_visitList_of_error (h : reader.list = .error fault) (visit : Nat → Reader → Visit σ Bool) (state : σ) :
    Makes reader.visitList visit state [] (.error fault) state where
  run := by rw [visitList, h]; rfl
  log := by rw [visitList, h]; rfl

theorem makes_visitMap_of_error (h : reader.map = .error fault) (visit : String → Reader → Visit σ Bool) (state : σ) :
    Makes reader.visitMap visit state [] (.error fault) state where
  run := by rw [visitMap, h]; rfl
  log := by rw [visitMap, h]; rfl

end Walks

structure WalksChildren (reader : α → Reader) (items? : α → Option (List α)) (entries? : α → Option (Entries α)) :
    Prop where
  list : ∀ node items, items? node = some items →
    (reader node).listLength = .ok items.length ∧
      ∀ {σ : Type} (visit : Nat → Reader → Visit σ Bool) (state : σ), ∃ calls result final,
        Makes (reader node).visitList visit state calls result final ∧ ItemCalls (items.map reader) calls ∧
          Course visit (numbered (items.map reader)) state calls result final
  map : ∀ node entries, entries? node = some entries →
    (reader node).mapSize = .ok entries.size ∧
      ∃ enumeration, entries.Enumerates enumeration ∧
        ∀ {σ : Type} (visit : String → Reader → Visit σ Bool) (state : σ), ∃ calls result final,
          Makes (reader node).visitMap visit state calls result final ∧
            Course visit (enumeration.map fun entry => (entry.1, reader entry.2)) state calls result final
  noList : ∀ node, items? node = none → ∃ fault, (reader node).listLength = .error fault ∧
    ∀ {σ : Type} (visit : Nat → Reader → Visit σ Bool) (state : σ),
      Makes (reader node).visitList visit state [] (.error fault) state
  noMap : ∀ node, entries? node = none → ∃ fault, (reader node).mapSize = .error fault ∧
    ∀ {σ : Type} (visit : String → Reader → Visit σ Bool) (state : σ),
      Makes (reader node).visitMap visit state [] (.error fault) state

theorem walksChildren {reader : α → Reader} {items? : α → Option (List α)} {entries? : α → Option (Entries α)}
    (hlist : ∀ node, (reader node).list.toOption = (items? node).map (·.map reader))
    (hmap : ∀ node, (reader node).map.toOption = (entries? node).map (·.map reader)) :
    WalksChildren reader items? entries? where
  list node items hitems := by
    have hreaders : (reader node).list = .ok (items.map reader) := by
      rw [← toOption_eq_some_iff, hlist, hitems, Option.map_some]
    refine ⟨?_, exists_visitList hreaders⟩
    rw [listLength, hreaders, Except.map, List.length_map]
  map node entries hentries := by
    have hreaders : (reader node).map = .ok (entries.map reader) := by
      rw [← toOption_eq_some_iff, hmap, hentries, Option.map_some]
    refine ⟨by rw [mapSize, hreaders]; rfl, entries.toList, entries.enumerates_toList, ?_⟩
    rw [← entries.toList_map reader]
    exact exists_visitMap hreaders
  noList node hnone := by
    obtain ⟨fault, hfault⟩ := exists_error_of_toOption ((hlist node).trans (by rw [hnone, Option.map_none]))
    exact ⟨fault, by rw [listLength, hfault]; rfl, makes_visitList_of_error hfault⟩
  noMap node hnone := by
    obtain ⟨fault, hfault⟩ := exists_error_of_toOption ((hmap node).trans (by rw [hnone, Option.map_none]))
    exact ⟨fault, by rw [mapSize, hfault]; rfl, makes_visitMap_of_error hfault⟩

end Reader

theorem Tree.toOption_list (tree : Tree) : tree.reader.list.toOption = tree.items?.map (·.map reader) := by
  cases tree with
  | list items =>
    rw [reader_list]
    rfl
  | _ => rfl

theorem Tree.toOption_map (tree : Tree) : tree.reader.map.toOption = tree.entries?.map (·.map reader) := by
  cases tree with
  | map entries =>
    rw [reader_map]
    rfl
  | _ => rfl

namespace Attribute

namespace View

def items? : View → Option (List View)
  | list items => some items
  | _ => none

def entries? : View → Option (Entries View)
  | map entries => some entries
  | _ => none

theorem toOption_list (view : View) : view.reader.list.toOption = view.items?.map (·.map reader) := by
  cases view with
  | list items =>
    rw [reader_list]
    rfl
  | string text =>
    rw [reader]
    split <;> rfl
  | _ => rfl

theorem toOption_map (view : View) : view.reader.map.toOption = view.entries?.map (·.map reader) := by
  cases view with
  | map entries =>
    rw [reader_map]
    rfl
  | string text =>
    rw [reader]
    split <;> rfl
  | _ => rfl

end View

theorem walksChildren_of_view [Form α] {items? : α → Option (List α)} {entries? : α → Option (Entries α)}
    (hitems : ∀ attr, (Form.view attr).items? = (items? attr).map (·.map Form.view))
    (hentries : ∀ attr, (Form.view attr).entries? = (entries? attr).map (·.map Form.view)) :
    Reader.WalksChildren (reader (α := α)) items? entries? := by
  refine Reader.walksChildren (fun attr => ?_) fun attr => ?_
  · rw [reader, View.toOption_list, hitems, Option.map_map]
    congr 1
    funext items
    exact List.map_map
  · rw [reader, View.toOption_map, hentries, Option.map_map]
    congr 1
    funext entries
    exact entries.map_map ..

namespace Members

def items? (members : Members) : Option (List Members) :=
  match members.viewed? with
  | some (.list items) => some items
  | _ => none

def entries? (members : Members) : Option (Entries Members) :=
  match members.viewed? with
  | some (.map entries) => some entries
  | _ => none

theorem items?_view (members : Members) : members.view.items? = members.items?.map (·.map view) := by
  rw [view_eq_viewed, items?]
  cases members.viewed? with
  | none => rfl
  | some setting => cases setting <;> rfl

theorem entries?_view (members : Members) : members.view.entries? = members.entries?.map (·.map view) := by
  rw [view_eq_viewed, entries?]
  cases members.viewed? with
  | none => rfl
  | some setting => cases setting <;> rfl

end Members

namespace Tagged

def items? : Tagged → Option (List Tagged)
  | list items => some items
  | _ => none

def entries? : Tagged → Option (Entries Tagged)
  | map entries => some entries
  | _ => none

theorem items?_view (attr : Tagged) : attr.view.items? = attr.items?.map (·.map view) := by
  cases attr with
  | list items => exact congrArg some (viewItems_eq_map items)
  | _ => rfl

theorem entries?_view (attr : Tagged) : attr.view.entries? = attr.entries?.map (·.map view) := by
  cases attr with
  | map entries => exact congrArg some (viewEntries_eq_map entries)
  | _ => rfl

end Tagged

end Attribute

namespace Reader

theorem walks_children :
    WalksChildren Tree.reader Tree.items? Tree.entries? ∧
      WalksChildren Attribute.reader Members.items? Members.entries? ∧
      WalksChildren Attribute.reader Tagged.items? Tagged.entries? :=
  ⟨walksChildren Tree.toOption_list Tree.toOption_map,
    Attribute.walksChildren_of_view Members.items?_view Members.entries?_view,
    Attribute.walksChildren_of_view Tagged.items?_view Tagged.entries?_view⟩

def countdown {κ : Type} (_ : κ) (_ : Reader) : Visit Nat Bool := do
  let left ← get
  set (left - 1)
  return decide (1 < left)

def convoy : Members :=
  { list? := some [{ number? := some "1" }, { string? := some "", binary? := some [7] }, {}], map? := some .empty }

theorem walks_children_countdown :
    (Attribute.reader convoy).listLength = .ok 3 ∧
      Makes (Attribute.reader convoy).visitList countdown 2
        [(0, View.reader (.number "1")), (1, View.reader (.binary [7]))] (.ok ()) 0 ∧
      Makes (Attribute.reader convoy).visitMap countdown 2 [] (.error (.mismatch "map" "list")) 2 := by
  obtain ⟨-, hmembers, -⟩ := walks_children
  obtain ⟨hlength, hwalk⟩ := hmembers.list convoy _ rfl
  obtain ⟨calls, result, final, hmakes, -, -⟩ := hwalk countdown 2
  have hlog : ((Attribute.reader convoy).visitList (logged countdown)).run.run (2, []) =
      (.ok (), 0, [(0, View.reader (.number "1")), (1, View.reader (.binary [7]))]) := rfl
  -- The log of the walk says which calls they are.
  cases hlog.symm.trans hmakes.log
  obtain ⟨fault, hfault, hnone⟩ := hmembers.noMap convoy rfl
  cases hfault
  exact ⟨hlength, hmakes, hnone countdown 2⟩

end Reader

end AttributeCodec
