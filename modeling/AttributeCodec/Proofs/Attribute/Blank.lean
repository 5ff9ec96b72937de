import AttributeCodec.Proofs.Attribute.Position

/-! Empty text in an attribute is as good as null, at every depth. -/

namespace AttributeCodec

variable {α β ε : Type}

theorem map_modify_of_eq {g : α → β} {f : α → α} (h : ∀ x, g (f x) = g x) (xs : List α) (index : Nat) :
    (xs.modify index f).map g = xs.map g := by
  have hcomm : (xs.modify index f).map g = (xs.map g).modify index id := map_modify_of_comm h xs index
  rw [hcomm, List.modify_id]

theorem mapM_modify_of_eq {g : α → Except ε β} {f : α → α} (h : ∀ x, g (f x) = g x) (xs : List α) (index : Nat) :
    (xs.modify index f).mapM g = xs.mapM g := by
  induction xs generalizing index with
  | nil => simp
  | cons x xs ih =>
    cases index with
    | zero => rw [List.modify_zero_cons, List.mapM_cons, h, List.mapM_cons]
    | succ index => rw [List.modify_succ_cons, List.mapM_cons, ih, List.mapM_cons]

theorem Fields.map_modify_of_eq {g : α → β} {f : α → α} (h : ∀ x, g (f x) = g x) {names : List String}
    (fields : Fields α names) (key : String) : (fields.modify key f).map g = fields.map g := by
  induction fields with
  | nil => rfl
  | cons name value rest ih =>
    rw [modify]
    split
    · rw [map, h, map]
    · rw [map, ih, map]

theorem Fields.traverse_modify_of_eq {g : String → α → Except ε β} {f : α → α} (h : ∀ name x, g name (f x) = g name x)
    {names : List String} (fields : Fields α names) (key : String) :
    (fields.modify key f).traverse g = fields.traverse g := by
  induction fields with
  | nil => rfl
  | cons name value rest ih =>
    rw [modify]
    split
    · rw [traverse, h, traverse]
    · rw [traverse, ih, traverse]

namespace Attribute

open Parted (modifyChild)

def modifyAt [Parted α] (f : α → α) : Position → α → α
  | [], whole => f whole
  | step :: position, whole => modifyChild (modifyAt f position) step whole

theorem same_modifyAt [Parted α] {same : α → α → Prop} {f : α → α}
    (hchild : ∀ g : α → α, (∀ whole, same (g whole) whole) → ∀ step whole, same (modifyChild g step whole) whole)
    (hf : ∀ whole, same (f whole) whole) (position : Position) (whole : α) :
    same (modifyAt f position whole) whole := by
  induction position generalizing whole with
  | nil => exact hf whole
  | cons step position ih => exact hchild _ ih step whole

theorem view_modifyAt [Form α] [Parted α] [LawfulParted α] {f : α → α} {f' : View → View}
    (h : ∀ attr, Form.view (f attr) = f' (Form.view attr)) (position : Position) (attr : α) :
    Form.view (modifyAt f position attr) = modifyAt f' position (Form.view attr) := by
  induction position generalizing attr with
  | nil => exact h attr
  | cons step position ih => exact LawfulParted.view_modifyChild ih step attr

def nulled [Form α] (attr : α) : α :=
  match Form.view attr with
  | .string text => if text.isEmpty then Form.null else attr
  | _ => attr

def nulledAt [Form α] [Parted α] (positions : List Position) (attr : α) : α :=
  positions.foldl (fun attr position => modifyAt nulled position attr) attr

namespace View

def nulled : View → View
  | string text => if text.isEmpty then null else string text
  | view => view

structure Indistinct (view other : View) : Prop where
  tree : view.tree = other.tree
  reader : view.reader = other.reader

theorem indistinct_nulled (view : View) : Indistinct view.nulled view := by
  cases view with
  | string text =>
    rw [nulled]
    split
    · next h => exact ⟨by rw [tree, tree, Tree.ofText, if_pos h], by rw [reader, reader, if_pos h]⟩
    · exact ⟨rfl, rfl⟩
  | _ => exact ⟨rfl, rfl⟩

theorem indistinct_modifyChild (f : View → View) (h : ∀ view, Indistinct (f view) view) (step : Step) (view : View) :
    Indistinct (modifyChild f step view) view := by
  cases view with
  | list items =>
    cases step with
    | item index =>
      show Indistinct (list (items.modify index f)) (list items)
      constructor
      · rw [tree_list, tree_list, mapM_modify_of_eq fun view => (h view).tree]
      · rw [reader_list, reader_list, map_modify_of_eq fun view => (h view).reader]
    | field name => exact ⟨rfl, rfl⟩
  | map entries =>
    cases step with
    | item index => exact ⟨rfl, rfl⟩
    | field name =>
      show Indistinct (map (entries.modify name f)) (map entries)
      constructor
      · rw [tree_map, tree_map, Entries.modify, Entries.traverse, Entries.traverse,
          Fields.traverse_modify_of_eq fun _ view => (h view).tree]
      · rw [reader_map, reader_map, Entries.modify, Entries.map, Entries.map,
          Fields.map_modify_of_eq fun view => (h view).reader]
  | _ => cases step <;> exact ⟨rfl, rfl⟩

end View

theorem view_nulled [Form α] [LawfulForm α] (attr : α) : Form.view (nulled attr) = (Form.view attr).nulled := by
  rw [nulled]
  cases hview : Form.view attr with
  | string text =>
    show Form.view (if text.isEmpty then Form.null else attr) = if text.isEmpty then .null else .string text
    split
    · exact LawfulForm.view_null
    · exact hview
  | _ => exact hview

theorem indistinct_nulledAt [Form α] [LawfulForm α] [Parted α] [LawfulParted α] (positions : List Position) (attr : α) :
    View.Indistinct (Form.view (nulledAt positions attr)) (Form.view attr) := by
  induction positions generalizing attr with
  | nil => exact ⟨rfl, rfl⟩
  | cons position positions ih =>
    have hfirst : View.Indistinct (Form.view (modifyAt nulled position attr)) (Form.view attr) := by
      rw [view_modifyAt view_nulled]
      exact same_modifyAt View.indistinct_modifyChild View.indistinct_nulled position (Form.view attr)
    have hrest := ih (modifyAt nulled position attr)
    exact ⟨hrest.tree.trans hfirst.tree, hrest.reader.trans hfirst.reader⟩

end Attribute

end AttributeCodec
