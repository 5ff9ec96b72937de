import AttributeCodec.Proofs.Attribute.Lawful
import AttributeCodec.Proofs.Attribute.View

/-! Positions inside an attribute: the indices and names on the way to a part. -/

namespace AttributeCodec

variable {α β ε : Type}

theorem map_modify_of_comm {g : α → β} {f : α → α} {f' : β → β} (h : ∀ x, g (f x) = f' (g x))
    (xs : List α) (index : Nat) : (xs.modify index f).map g = (xs.map g).modify index f' := by
  induction xs generalizing index with
  | nil => simp
  | cons x xs ih =>
    cases index with
    | zero => simp [h]
    | succ index => simp [ih]

theorem mapM_modify {f : α → Except ε β} {g : α → α} {xs : List α} {ys : List β} {index : Nat} {x : α}
    (hall : xs.mapM f = .ok ys) (hx : xs[index]? = some x) :
    (xs.modify index g).mapM f = (ys.set index ·) <$> f (g x) := by
  induction xs generalizing ys index with
  | nil => simp at hx
  | cons head xs ih =>
    simp only [List.mapM_cons, bind_eq_ok, pure_eq_ok] at hall
    obtain ⟨y, hy, ys, hys, rfl⟩ := hall
    cases index with
    | zero =>
      obtain rfl : head = x := by simpa using hx
      rw [List.modify_zero_cons, List.mapM_cons, hys]
      cases f (g head) <;> rfl
    | succ index =>
      rw [List.modify_succ_cons, List.mapM_cons, hy, ih hys hx]
      cases f (g x) <;> rfl

namespace Fields

def modify (key : String) (f : α → α) {names : List String} : Fields α names → Fields α names
  | .nil => .nil
  | .cons name value rest =>
    if name = key then .cons name (f value) rest else .cons name value (rest.modify key f)

variable {names : List String}

theorem map_modify {g : α → β} {f : α → α} {f' : β → β} (h : ∀ x, g (f x) = f' (g x))
    (fields : Fields α names) (key : String) :
    (fields.modify key f).map g = (fields.map g).modify key f' := by
  induction fields with
  | nil => rfl
  | cons name value rest ih =>
    rw [modify, map, modify, ← ih, ← h]
    split <;> rfl

theorem get?_modify (fields : Fields α names) (key name : String) (f : α → α) :
    (fields.modify key f).get? name = if key = name then (fields.get? name).map f else fields.get? name := by
  induction fields with
  | nil => simp [modify, get?]
  | cons other value rest ih =>
    rw [modify]
    by_cases hkey : other = key
    · subst hkey
      rw [if_pos rfl, get?, get?]
      split <;> rfl
    · rw [if_neg hkey, get?, get?, ih]
      by_cases hname : other = name
      · rw [if_pos hname, if_neg fun heq => hkey (hname.trans heq.symm), if_pos hname]
      · rw [if_neg hname, if_neg hname]

theorem traverse_modify {f : String → α → Except ε β} {g : α → α} {fields : Fields α names}
    {others : Fields β names} {key : String} {x : α} (hall : fields.traverse f = .ok others)
    (hx : fields.get? key = some x) :
    (fields.modify key g).traverse f = (fun y => others.modify key fun _ => y) <$> f key (g x) := by
  induction fields with
  | nil => simp [get?] at hx
  | cons name value rest ih =>
    simp only [traverse, bind_eq_ok, pure_eq_ok] at hall
    obtain ⟨y, hy, ys, hys, rfl⟩ := hall
    rw [get?] at hx
    rw [modify]
    split at hx
    · next hname =>
      subst hname
      obtain rfl : value = x := by simpa using hx
      rw [if_pos rfl, traverse, hys]
      cases hg : f name (g value) <;> simp [modify, bind, Except.bind, pure, Except.pure, Functor.map, Except.map]
    · next hname =>
      rw [if_neg hname, traverse, hy, ih hys hx]
      cases hg : f key (g x) <;>
        simp [modify, hname, bind, Except.bind, pure, Except.pure, Functor.map, Except.map]

end Fields

namespace Entries

def modify (entries : Entries α) (key : String) (f : α → α) : Entries α :=
  ⟨entries.names, entries.distinct, entries.fields.modify key f⟩

theorem map_modify {g : α → β} {f : α → α} {f' : β → β} (h : ∀ x, g (f x) = f' (g x))
    (entries : Entries α) (key : String) :
    (entries.modify key f).map g = (entries.map g).modify key f' := by
  rw [modify, map, Fields.map_modify h]
  rfl

theorem get?_modify (entries : Entries α) (key name : String) (f : α → α) :
    (entries.modify key f).get? name = if key = name then (entries.get? name).map f else entries.get? name :=
  entries.fields.get?_modify key name f

theorem traverse_modify {f : String → α → Except ε β} {g : α → α} {entries : Entries α} {others : Entries β}
    {key : String} {x : α} (hall : entries.traverse f = .ok others) (hx : entries.get? key = some x) :
    (entries.modify key g).traverse f = (fun y => others.modify key fun _ => y) <$> f key (g x) := by
  simp only [traverse, bind_eq_ok, pure_eq_ok] at hall
  obtain ⟨fields, hfields, rfl⟩ := hall
  rw [traverse, modify, Fields.traverse_modify hfields hx]
  cases f key (g x) <;> rfl

end Entries

namespace Attribute

inductive Step where
  | item (index : Nat)
  | field (name : String)

abbrev Position := List Step

class Parted (α : Type) where
  modifyChild : (α → α) → Step → α → α

open Parted (modifyChild)

def put [Parted α] (part : α) : Position → α → α
  | [], _ => part
  | step :: position, whole => modifyChild (put part position) step whole

namespace View

def child? : View → Step → Option View
  | list items, .item index => items[index]?
  | map entries, .field name => entries.get? name
  | _, _ => none

def part? : View → Position → Option View
  | view, [] => some view
  | view, step :: position => (view.child? step).bind fun child => child.part? position

instance : Parted View where
  modifyChild
    | f, .item index, list items => list (items.modify index f)
    | f, .field name, map entries => map (entries.modify name f)
    | _, _, view => view

end View

instance : Parted Members where
  modifyChild
    | f, .item index, members => { members with list? := members.list?.map (·.modify index f) }
    | f, .field name, members => { members with map? := members.map?.map (·.modify name f) }

instance : Parted Tagged where
  modifyChild
    | f, .item index, .list items => .list (items.modify index f)
    | f, .field name, .map entries => .map (entries.modify name f)
    | _, _, attr => attr

class LawfulParted (α : Type) [Form α] [Parted α] : Prop where
  view_modifyChild {f : α → α} {f' : View → View} (h : ∀ child, Form.view (f child) = f' (Form.view child))
    (step : Step) (attr : α) : Form.view (modifyChild f step attr) = modifyChild f' step (Form.view attr)

instance : LawfulParted Members where
  view_modifyChild {f f'} h step attr := by
    have hview : ∀ child, Members.view (f child) = f' child.view := h
    obtain ⟨binary?, bool?, binarySet?, list?, map?, number?, numberSet?, null?, string?, stringSet?⟩ := attr
    show Members.view _ = modifyChild f' step (Members.view _)
    cases null? with
    | some => cases step <;> rfl
    | none =>
    cases bool? with
    | some => cases step <;> rfl
    | none =>
    cases number? with
    | some => cases step <;> rfl
    | none =>
    cases binary? with
    | some => cases step <;> rfl
    | none =>
    cases string? with
    | some => cases step <;> rfl
    | none =>
    cases list? with
    | some items =>
      cases step with
      | item index =>
        show View.list (Members.viewItems (items.modify index f)) =
          .list ((Members.viewItems items).modify index f')
        rw [Members.viewItems_eq_map, Members.viewItems_eq_map, map_modify_of_comm hview]
      | field name => rfl
    | none =>
    cases map? with
    | some entries =>
      cases step with
      | item index => rfl
      | field name =>
        show View.map (Members.viewEntries (entries.modify name f)) =
          .map ((Members.viewEntries entries).modify name f')
        rw [Members.viewEntries_eq_map, Members.viewEntries_eq_map, Entries.map_modify hview]
    | none =>
    cases stringSet? with
    | some => cases step <;> rfl
    | none =>
    cases numberSet? with
    | some => cases step <;> rfl
    | none => cases binarySet? <;> cases step <;> rfl

instance : LawfulParted Tagged where
  view_modifyChild {f f'} h step attr := by
    have hview : ∀ child, Tagged.view (f child) = f' child.view := h
    cases attr with
    | list items =>
      cases step with
      | item index =>
        show View.list (Tagged.viewItems (items.modify index f)) = .list ((Tagged.viewItems items).modify index f')
        rw [Tagged.viewItems_eq_map, Tagged.viewItems_eq_map, map_modify_of_comm hview]
      | field name => rfl
    | map entries =>
      cases step with
      | item index => rfl
      | field name =>
        show View.map (Tagged.viewEntries (entries.modify name f)) = .map ((Tagged.viewEntries entries).modify name f')
        rw [Tagged.viewEntries_eq_map, Tagged.viewEntries_eq_map, Entries.map_modify hview]
    | _ => cases step <;> rfl

theorem view_put [Form α] [Parted α] [LawfulParted α] (part : α) (position : Position) (attr : α) :
    Form.view (put part position attr) = put (Form.view part) position (Form.view attr) := by
  induction position generalizing attr with
  | nil => rfl
  | cons step position ih => exact LawfulParted.view_modifyChild ih step attr

end Attribute

end AttributeCodec
