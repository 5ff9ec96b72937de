import AttributeCodec.Proofs.Attribute.Blank
import AttributeCodec.Proofs.Attribute.Json.Exchange
import AttributeCodec.Proofs.Attribute.Precedence

/-! Members that another one keeps out of view are never read. -/

namespace AttributeCodec.Attribute

open Parted (modifyChild)

def Member.later (member : Member) : List Member := (precedence.dropWhile (· ≠ member)).tail

theorem Member.later_of_precedence {member : Member} {before after : List Member}
    (h : precedence = before ++ member :: after) : member ∉ before ∧ member ∉ after ∧ member.later = after := by
  obtain ⟨-, hcons, hapart⟩ := List.nodup_append.mp (h ▸ nodup_precedence)
  have hbefore : member ∉ before := fun hmem => hapart member hmem member List.mem_cons_self rfl
  refine ⟨hbefore, (List.nodup_cons.mp hcons).1, ?_⟩
  have hpass : ∀ other ∈ before, decide (other ≠ member) = true :=
    fun other hother => decide_eq_true fun heq => hbefore (heq ▸ hother)
  rw [later, h, List.dropWhile_append_of_pos hpass, List.dropWhile_cons_of_neg (by simp), List.tail_cons]

namespace Members

variable {members : Members} {setting : Setting}

def clear (members : Members) : Member → Members
  | .binary => { members with binary? := none }
  | .bool => { members with bool? := none }
  | .binarySet => { members with binarySet? := none }
  | .list => { members with list? := none }
  | .map => { members with map? := none }
  | .number => { members with number? := none }
  | .numberSet => { members with numberSet? := none }
  | .null => { members with null? := none }
  | .string => { members with string? := none }
  | .stringSet => { members with stringSet? := none }

theorem setting?_clear (members : Members) (cleared member : Member) :
    (members.clear cleared).setting? member = if cleared = member then none else members.setting? member := by
  cases cleared <;> cases member <;> rfl

theorem setting?_foldl_clear (cleared : List Member) (members : Members) (member : Member) :
    (cleared.foldl clear members).setting? member = if member ∈ cleared then none else members.setting? member := by
  induction cleared generalizing members with
  | nil => rfl
  | cons first rest ih =>
    rw [List.foldl_cons, ih, setting?_clear]
    by_cases hrest : member ∈ rest
    · rw [if_pos hrest, if_pos (List.mem_cons_of_mem first hrest)]
    · have hcons : member ∈ first :: rest ↔ first = member := by simp [hrest, eq_comm]
      simp only [if_neg hrest, hcons]

def unmasked (members : Members) : Members :=
  match members.viewed? with
  | some setting => setting.member.later.foldl clear members
  | none => members

theorem unmasked_of_viewed (h : members.viewed? = some setting) : members.unmasked = ({} : Members).set setting := by
  obtain ⟨before, member, after, horder, hmember, hbefore⟩ := List.findSome?_eq_some_iff.mp h
  obtain rfl := member_of_setting? hmember
  obtain ⟨-, hafter, hlater⟩ := Member.later_of_precedence horder
  simp only [unmasked, h, hlater]
  -- What comes before the member in view is absent anyway, and what comes after it is cleared.
  refine ext_setting? fun member => ?_
  rw [setting?_foldl_clear, setting?_set, setting?_empty]
  have hmem : member ∈ before ++ setting.member :: after := horder ▸ Member.mem_precedence member
  rcases List.mem_append.mp hmem with hmem | hmem
  · have hne : setting.member ≠ member := by
      rintro rfl
      cases hmember.symm.trans (hbefore _ hmem)
    rw [hbefore member hmem, if_neg hne, ite_self]
  · rcases List.mem_cons.mp hmem with rfl | hmem
    · rw [if_neg hafter, if_pos rfl, hmember]
    · have hne : setting.member ≠ member := fun heq => hafter (heq ▸ hmem)
      rw [if_pos hmem, if_neg hne]

theorem viewed?_unmasked (members : Members) : members.unmasked.viewed? = members.viewed? := by
  cases h : members.viewed? with
  | none => rw [unmasked, h, h]
  | some setting => rw [unmasked_of_viewed h, viewed?_set_empty]

theorem view_unmasked (members : Members) : members.unmasked.view = members.view := by
  rw [view_eq_viewed, view_eq_viewed, viewed?_unmasked]

def Lone (members : Members) : Prop := members.settings = members.viewed?.toList

theorem lone_unmasked (members : Members) : members.unmasked.Lone := by
  rw [Lone, viewed?_unmasked]
  cases h : members.viewed? with
  | none =>
    obtain rfl := viewed?_eq_none_iff.mp h
    rfl
  | some setting => exact eq_set_empty_iff.mp (unmasked_of_viewed h)

theorem Lone.modifyChild (h : members.Lone) (f : Members → Members) (step : Step) :
    (Parted.modifyChild f step members).Lone := by
  rw [Lone, settings_modifyChild, viewed?_modifyChild, h]
  cases members.viewed? <;> rfl

theorem Setting.view_modifyChild {f : Members → Members} (h : ∀ child, (f child).view = child.view) (step : Step)
    (setting : Setting) : (setting.modifyChild f step).view = setting.view := by
  cases step with
  | item index =>
    cases setting with
    | list items => exact congrArg View.list (map_modify_of_eq h items index)
    | _ => rfl
  | field name =>
    cases setting with
    | map entries =>
      show View.map ((entries.modify name f).map Members.view) = View.map (entries.map Members.view)
      rw [Entries.modify, Entries.map, Entries.map, Fields.map_modify_of_eq h]
    | _ => rfl

theorem view_modifyChild {f : Members → Members} (h : ∀ child, (f child).view = child.view) (step : Step)
    (members : Members) : (modifyChild f step members).view = members.view := by
  rw [view_eq_viewed, view_eq_viewed, viewed?_modifyChild]
  cases members.viewed? with
  | none => rfl
  | some setting => exact setting.view_modifyChild h step

def unmaskedAt (positions : List Position) (members : Members) : Members :=
  positions.foldl (fun members position => modifyAt unmasked position members) members

theorem view_unmaskedAt (positions : List Position) (members : Members) :
    (unmaskedAt positions members).view = members.view := by
  induction positions generalizing members with
  | nil => rfl
  | cons position positions ih =>
    let same (whole other : Members) : Prop := whole.view = other.view
    have hfirst : same (modifyAt unmasked position members) members :=
      same_modifyAt (fun _ => view_modifyChild) view_unmasked position members
    exact (ih _).trans hfirst

def LoneAt (position : Position) (members : Members) : Prop :=
  ∀ part, members.part? position = some part → part.Lone

theorem loneAt_cons {step : Step} {position : Position} :
    LoneAt (step :: position) members ↔ ∀ child, members.child? step = some child → LoneAt position child := by
  simp only [LoneAt, part?, Option.bind_eq_some_iff]
  constructor
  · intro h child hchild part hpart
    exact h part ⟨child, hchild, hpart⟩
  · rintro h part ⟨child, hchild, hpart⟩
    exact h child hchild part hpart

theorem loneAt_modifyAt (position : Position) (members : Members) :
    LoneAt position (modifyAt unmasked position members) := by
  induction position generalizing members with
  | nil =>
    rintro _ ⟨⟩
    exact lone_unmasked members
  | cons step position ih =>
    refine loneAt_cons.mpr fun child hchild => ?_
    rw [modifyAt, child?_modifyChild, Option.map_eq_some_iff] at hchild
    obtain ⟨child, -, rfl⟩ := hchild
    exact ih child

theorem LoneAt.modifyAt {position : Position} (h : LoneAt position members) (other : Position) :
    LoneAt position (modifyAt unmasked other members) := by
  -- Either position may be the shorter one, and where they part ways the other leads into a sibling.
  induction position generalizing members other with
  | nil =>
    rintro _ ⟨⟩
    cases other with
    | nil => exact lone_unmasked members
    | cons step other => exact (h members rfl).modifyChild _ step
  | cons step position ih =>
    rw [loneAt_cons] at h
    refine loneAt_cons.mpr fun child hchild => ?_
    cases other with
    | nil =>
      rw [Attribute.modifyAt, child?, viewed?_unmasked] at hchild
      exact h child hchild
    | cons step' other =>
      rw [Attribute.modifyAt] at hchild
      by_cases heq : step' = step
      · subst heq
        rw [child?_modifyChild, Option.map_eq_some_iff] at hchild
        obtain ⟨child, hchild, rfl⟩ := hchild
        exact ih (h child hchild) other
      · rw [child?_modifyChild_of_ne heq] at hchild
        exact h child hchild

theorem LoneAt.unmaskedAt {position : Position} (h : LoneAt position members) (positions : List Position) :
    LoneAt position (unmaskedAt positions members) := by
  induction positions generalizing members with
  | nil => exact h
  | cons first positions ih => exact ih (h.modifyAt first)

theorem loneAt_unmaskedAt {position : Position} {positions : List Position} (h : position ∈ positions)
    (members : Members) : LoneAt position (unmaskedAt positions members) := by
  induction positions generalizing members with
  | nil => cases h
  | cons first positions ih =>
    rcases List.mem_cons.mp h with rfl | h
    · exact (loneAt_modifyAt position members).unmaskedAt positions
    · exact ih h _

structure SetInTurn (settings : List Setting) : Prop where
  last : ∀ member, (ofSettings settings).setting? member = last? settings member
  determined : ∀ others, ofSettings settings = ofSettings others ↔ ∀ member, last? settings member = last? others member
  view : (ofSettings settings).view = (Member.precedence.findSome? (last? settings)).elim .empty Setting.view

theorem setInTurn (settings : List Setting) : SetInTurn settings where
  last member := by rw [setting?_ofSettings]
  determined _ := ofSettings_eq_iff
  view := view_ofSettings settings

structure Unseen (positions : List Position) (members : Members) : Prop where
  lone : ∀ position ∈ positions, LoneAt position (unmaskedAt positions members)
  parts : ∀ position, ((unmaskedAt positions members).part? position).map Members.view =
    (members.part? position).map Members.view
  alike : Alike (unmaskedAt positions members) members

theorem unseen (positions : List Position) (members : Members) : Unseen positions members where
  lone _ h := loneAt_unmaskedAt h members
  parts position := by rw [view_part?, view_part?, view_unmaskedAt]
  alike := alike_of_view (view_unmaskedAt positions members)

theorem masked_unread :
    (∀ settings, SetInTurn settings) ∧
      (∀ (members : Members) (setting other : Setting), setting.member ≠ other.member →
        (members.set setting).set other = (members.set other).set setting) ∧
      ∀ positions members, Unseen positions members :=
  ⟨setInTurn, fun members _ _ h => set_comm h members, unseen⟩

def palimpsest : Members :=
  { list? := some
      [{ number? := some "7", list? := some [{}] }, { string? := some "", stringSet? := some ["a"] }]
    map? := some (.singleton "cost" { number? := some "dear" }) }

def scraped : Members := { list? := some [{ number? := some "7" }, { string? := some "" }] }

theorem masked_unread_palimpsest :
    (ofSettings [.string "a", .null false, .string "b"]).view = .null ∧
      ofSettings [.string "a", .null false, .string "b"] = ofSettings [.string "b", .null false] ∧
      unmaskedAt [[], [.item 0], [.item 1]] palimpsest = scraped ∧
      tree palimpsest = .ok (.list [.number (.int 7), .null]) ∧
      ∀ hook type, (reader palimpsest).decode hook type = (reader scraped).decode hook type := by
  obtain ⟨hturn, hcomm, hunseen⟩ := masked_unread
  have hread : Number.read "7" = .ok (.int 7) := by decide +kernel
  have htree : tree scraped = .ok (.list [.number (.int 7), .null]) := by
    show View.tree (.list [.number "7", .string ""]) = _
    simp only [View.tree, View.treeItems, hread]
    rfl
  have halike : Alike scraped palimpsest := (hunseen [[], [.item 0], [.item 1]] palimpsest).alike
  exact ⟨(hturn _).view, hcomm (({} : Members).set (.string "a")) (.null false) (.string "b") (by decide),
    rfl, halike.1.symm.trans htree, fun hook type => (halike.2 hook type).symm⟩

end Members

end AttributeCodec.Attribute
