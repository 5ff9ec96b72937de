import AttributeCodec.Proofs.Attribute.Position
import AttributeCodec.Proofs.Entries
import AttributeCodec.Proofs.Reader.Strict

/-! One fault in an attribute that could be decoded before: where it is read, what is read there decides how the
whole fails. -/

namespace AttributeCodec

open Attribute (Form LawfulParted Members Parted Position Step Tagged View put)
open Attribute.Parted (modifyChild)

inductive Destination where
  | datum (type : DatumType)
  | component
deriving DecidableEq

namespace Destination

def inside? : Destination → Step → Option Destination
  | datum .any, _ => some (datum .any)
  | datum (.list element), .item _ => some (datum element)
  | datum (.map element), .field _ => some (datum element)
  | datum .complex, .item _ => some component
  | _, _ => none

def at? : Destination → Position → Option Destination
  | destination, [] => some destination
  | destination, step :: position => (destination.inside? step).bind fun inside => inside.at? position

def takesNumber : Destination → Bool
  | datum .any | datum .int | datum .uint | datum .float | component => true
  | _ => false

def read (hook : Hook) (reader : Reader) : Destination → Except Fault Datum
  | datum type => reader.decode hook type
  | component => Datum.float <$> reader.float

end Destination

namespace Reader

variable {hook : Hook}

section Composite

variable (hhook : hook.OnlyTimestamps) {type : DatumType} {datum : Datum}

include hhook

theorem type_of_decode_ofItems {items : List Reader} (h : (ofItems items).decode hook type = .ok datum) :
    type = .any ∨ type = .complex ∨ ∃ element, type = .list element := by
  rw [decode_eq, read] at h
  obtain ⟨-, ⟨text, htext⟩ | hgeneral⟩ := of_consult hhook h
  · cases htext
  · cases type with
    | any => exact .inl rfl
    | complex => exact .inr (.inl rfl)
    | list element => exact .inr (.inr ⟨element, rfl⟩)
    | _ => cases hgeneral

theorem type_of_decode_ofEntries {entries : Entries Reader}
    (h : (ofEntries entries).decode hook type = .ok datum) :
    type = .any ∨ ∃ element, type = .map element := by
  rw [decode_eq, read] at h
  obtain ⟨-, ⟨text, htext⟩ | hgeneral⟩ := of_consult hhook h
  · cases htext
  · cases type with
    | any => exact .inl rfl
    | map element => exact .inr ⟨element, rfl⟩
    | _ => cases hgeneral

theorem decode_complex_ofItems (items : List Reader) :
    (ofItems items).decode hook .complex =
      (fun z : Binary64 × Binary64 => Datum.complex z.1 z.2) <$> complexOfItems items := by
  rw [decode_eq_readTyped hhook rfl (by simp) (by simp), ← bind_pure_comp]
  rfl

end Composite

end Reader

namespace Attribute.View

/-- A child is read for the inner destination, and what fails there in its place makes the whole fail alike. -/
def ReadsChild (hook : Hook) (outer inner : Destination) (view : View) (step : Step) (child : View) : Prop :=
  (∃ datum, inner.read hook child.reader = .ok datum) ∧
    ∀ (f : View → View) (fault : Fault), inner.read hook (f child).reader = .error fault →
      outer.read hook (modifyChild f step view).reader = .error fault

variable {hook : Hook} (hhook : hook.OnlyTimestamps) {datum : Datum}

include hhook

theorem readsChild_list {element : DatumType} {items : List View} {index : Nat} {child : View}
    (hchild : items[index]? = some child) (h : (list items).reader.decode hook (.list element) = .ok datum) :
    ReadsChild hook (.datum (.list element)) (.datum element) (list items) (.item index) child := by
  rw [reader_list, Reader.decode_ofItems hhook, map_eq_ok, List.mapM_map] at h
  obtain ⟨data, hdata, -⟩ := h
  refine ⟨exists_mapM_iff.mp ⟨data, hdata⟩ child (List.mem_of_getElem? hchild), fun f fault hfault => ?_⟩
  show (list (items.modify index f)).reader.decode hook (.list element) = _
  rw [reader_list, Reader.decode_ofItems hhook, map_eq_error, List.mapM_map, mapM_modify hdata hchild, map_eq_error]
  exact hfault

theorem readsChild_map {element : DatumType} {entries : Entries View} {name : String} {child : View}
    (hchild : entries.get? name = some child) (h : (map entries).reader.decode hook (.map element) = .ok datum) :
    ReadsChild hook (.datum (.map element)) (.datum element) (map entries) (.field name) child := by
  rw [reader_map, Reader.decode_ofEntries hhook, Reader.decodeEntries_eq_map, map_eq_ok] at h
  obtain ⟨_, hdata, -⟩ := h
  obtain ⟨data, hdata, -⟩ := map_eq_ok.mp hdata
  rw [Entries.traverse_map] at hdata
  refine ⟨Entries.exists_traverse_iff.mp ⟨data, hdata⟩ (name, child) (Entries.get?_eq_some_iff.mp hchild), ?_⟩
  intro f fault hfault
  show (map (entries.modify name f)).reader.decode hook (.map element) = _
  rw [reader_map, Reader.decode_ofEntries hhook, Reader.decodeEntries_eq_map, map_eq_error, map_eq_error,
    Entries.traverse_map, Entries.traverse_modify hdata hchild, map_eq_error]
  exact hfault

theorem readsChild_complex {items : List View} {index : Nat} {child : View}
    (hchild : items[index]? = some child) (h : (list items).reader.decode hook .complex = .ok datum) :
    ReadsChild hook (.datum .complex) .component (list items) (.item index) child := by
  rw [reader_list, Reader.decode_complex_ofItems hhook, map_eq_ok] at h
  obtain ⟨z, hz, -⟩ := h
  match items with
  | [] | [_] | _ :: _ :: _ :: _ => cases hz
  | [re, im] =>
    simp only [List.map_cons, List.map_nil, Reader.complexOfItems, bind_eq_ok] at hz
    obtain ⟨x, hx, y, hy, -⟩ := hz
    rcases index with _ | _ | index
    · obtain rfl : re = child := Option.some.inj hchild
      refine ⟨⟨.float x, map_eq_ok.mpr ⟨x, hx, rfl⟩⟩, fun f fault hfault => ?_⟩
      show (list [f re, im]).reader.decode hook .complex = _
      rw [reader_list, Reader.decode_complex_ofItems hhook, map_eq_error]
      simp only [List.map_cons, List.map_nil, Reader.complexOfItems, map_eq_error.mp hfault]
      rfl
    · obtain rfl : im = child := Option.some.inj hchild
      refine ⟨⟨.float y, map_eq_ok.mpr ⟨y, hy, rfl⟩⟩, fun f fault hfault => ?_⟩
      show (list [re, f im]).reader.decode hook .complex = _
      rw [reader_list, Reader.decode_complex_ofItems hhook, map_eq_error]
      simp only [List.map_cons, List.map_nil, Reader.complexOfItems, hx, map_eq_error.mp hfault]
      rfl
    · cases hchild

theorem decode_any_list (items : List View) :
    (list items).reader.decode hook .any = (list items).reader.decode hook (.list .any) := by
  rw [reader_list, Reader.decode_any_ofItems hhook]

theorem decode_any_map (entries : Entries View) :
    (map entries).reader.decode hook .any = (map entries).reader.decode hook (.map .any) := by
  rw [reader_map, Reader.decode_any_ofEntries hhook]

theorem exists_readsChild_list {destination : Destination} {items : List View} {index : Nat} {child : View}
    (h : destination.read hook (list items).reader = .ok datum) (hchild : items[index]? = some child) :
    ∃ inside, destination.inside? (.item index) = some inside ∧
      ReadsChild hook destination inside (list items) (.item index) child := by
  cases destination with
  | component =>
    rw [reader_list] at h
    cases h
  | datum type =>
    replace h : (list items).reader.decode hook type = .ok datum := h
    have htype := h
    rw [reader_list] at htype
    rcases Reader.type_of_decode_ofItems hhook htype with rfl | rfl | ⟨element, rfl⟩
    · rw [decode_any_list hhook] at h
      obtain ⟨hread, hfails⟩ := readsChild_list hhook hchild h
      refine ⟨.datum .any, rfl, hread, fun f fault hfault => ?_⟩
      exact (decode_any_list hhook _).trans (hfails f fault hfault)
    · exact ⟨.component, rfl, readsChild_complex hhook hchild h⟩
    · exact ⟨.datum element, rfl, readsChild_list hhook hchild h⟩

theorem exists_readsChild_map {destination : Destination} {entries : Entries View} {name : String} {child : View}
    (h : destination.read hook (map entries).reader = .ok datum) (hchild : entries.get? name = some child) :
    ∃ inside, destination.inside? (.field name) = some inside ∧
      ReadsChild hook destination inside (map entries) (.field name) child := by
  cases destination with
  | component =>
    rw [reader_map] at h
    cases h
  | datum type =>
    replace h : (map entries).reader.decode hook type = .ok datum := h
    have htype := h
    rw [reader_map] at htype
    rcases Reader.type_of_decode_ofEntries hhook htype with rfl | ⟨element, rfl⟩
    · rw [decode_any_map hhook] at h
      obtain ⟨hread, hfails⟩ := readsChild_map hhook hchild h
      refine ⟨.datum .any, rfl, hread, fun f fault hfault => ?_⟩
      exact (decode_any_map hhook _).trans (hfails f fault hfault)
    · exact ⟨.datum element, rfl, readsChild_map hhook hchild h⟩

theorem exists_readsChild {destination : Destination} {view child : View} {step : Step}
    (h : destination.read hook view.reader = .ok datum) (hchild : view.child? step = some child) :
    ∃ inside, destination.inside? step = some inside ∧ ReadsChild hook destination inside view step child := by
  cases view with
  | list items =>
    cases step with
    | item index => exact exists_readsChild_list hhook h hchild
    | field => cases hchild
  | map entries =>
    cases step with
    | item => cases hchild
    | field name => exact exists_readsChild_map hhook h hchild
  | _ => cases step <;> cases hchild

theorem exists_readsPart {destination : Destination} {view old : View} {position : Position}
    (h : destination.read hook view.reader = .ok datum) (hpart : view.part? position = some old) :
    ∃ inside, destination.at? position = some inside ∧ (∃ datum, inside.read hook old.reader = .ok datum) ∧
      ∀ (part : View) (fault : Fault), inside.read hook part.reader = .error fault →
        destination.read hook (put part position view).reader = .error fault := by
  induction position generalizing destination view datum with
  | nil =>
    cases hpart
    exact ⟨destination, rfl, ⟨datum, h⟩, fun _ _ hfault => hfault⟩
  | cons step position ih =>
    obtain ⟨child, hchild, hpart⟩ := Option.bind_eq_some_iff.mp hpart
    obtain ⟨inner, hinner, ⟨_, hread⟩, houter⟩ := exists_readsChild hhook h hchild
    obtain ⟨inside, hinside, hold, hfails⟩ := ih hread hpart
    refine ⟨inside, ?_, hold, fun part fault hfault => ?_⟩
    · rw [Destination.at?, hinner]
      exact hinside
    · exact houter (put part position) fault (hfails part fault hfault)

omit hhook

theorem exists_tree_put {view old : View} {t : Tree} {position : Position} (h : view.tree = .ok t)
    (hpart : view.part? position = some old) :
    ∃ f : Tree → Tree, ∀ part : View, (put part position view).tree = f <$> part.tree := by
  induction position generalizing view t with
  | nil => exact ⟨id, fun part => (id_map part.tree).symm⟩
  | cons step position ih =>
    obtain ⟨child, hchild, hinner⟩ := Option.bind_eq_some_iff.mp hpart
    cases view with
    | list items =>
      cases step with
      | field => cases hchild
      | item index =>
        replace hchild : items[index]? = some child := hchild
        rw [tree_list, bind_eq_ok] at h
        obtain ⟨trees, htrees, -⟩ := h
        obtain ⟨t, ht⟩ := exists_mapM_iff.mp ⟨trees, htrees⟩ child (List.mem_of_getElem? hchild)
        obtain ⟨f, hf⟩ := ih ht hinner
        refine ⟨fun t => .list (trees.set index (f t)), fun part => ?_⟩
        show (list (items.modify index (put part position))).tree = _
        rw [tree_list, mapM_modify htrees hchild, hf]
        cases part.tree <;> rfl
    | map entries =>
      cases step with
      | item => cases hchild
      | field name =>
        replace hchild : entries.get? name = some child := hchild
        rw [tree_map, bind_eq_ok] at h
        obtain ⟨trees, htrees, -⟩ := h
        obtain ⟨t, ht⟩ :=
          Entries.exists_traverse_iff.mp ⟨trees, htrees⟩ (name, child) (Entries.get?_eq_some_iff.mp hchild)
        obtain ⟨f, hf⟩ := ih ht hinner
        refine ⟨fun t => .map (trees.modify name fun _ => f t), fun part => ?_⟩
        show (map (entries.modify name (put part position))).tree = _
        rw [tree_map, Entries.traverse_modify htrees hchild, hf]
        cases part.tree <;> rfl
    | _ => cases step <;> cases hchild

end Attribute.View

namespace Destination

variable {hook : Hook} {destination : Destination}

theorem read_set (hook : Hook) (destination : Destination) (type : SetType) :
    destination.read hook (View.set type).reader = .error (.unsupportedSet type) := by
  cases destination <;> rfl

theorem read_empty (hhook : hook = .none ∨ hook = .timestamps) {reader : Reader} {datum : Datum}
    (h : destination.read hook reader = .ok datum) :
    destination.read hook View.empty.reader =
      .error (if destination = .datum .timestamp then
        .mismatch "string field for timestamp" Kind.unsupported.name else .emptyAttribute) := by
  cases destination with
  | component => rfl
  | datum type =>
    by_cases htype : type = .timestamp
    · subst htype
      obtain ⟨rfl, -⟩ := Reader.exists_instant_of_decode hhook h
      rfl
    · have honly := Hook.onlyTimestamps_of_standard hhook
      rw [if_neg (by simpa using htype)]
      show View.empty.reader.decode hook type = _
      by_cases hany : type = .any
      · subst hany
        rw [Reader.decode_eq_readAny honly rfl]
        rfl
      · rw [Reader.decode_eq_readTyped honly rfl hany htype]
        cases type with
        | any | timestamp => contradiction
        | _ => rfl

theorem read_number (hhook : hook.OnlyTimestamps) {text : String} {fault : Fault}
    (hread : Number.read text = .error fault) (htakes : destination.takesNumber = true) :
    destination.read hook (View.number text).reader = .error fault := by
  have hreader : (View.number text).reader = View.numberReader text := rfl
  rw [hreader, View.numberReader, hread]
  cases destination with
  | component => rfl
  | datum type =>
    cases type with
    | any => exact Reader.decode_eq_readAny hhook rfl
    | int | uint | float => exact Reader.decode_eq_readTyped hhook rfl (by simp) (by simp)
    | _ => cases htakes

end Destination

namespace Attribute

variable {α : Type} [Form α]

def FailsAlike (hook : Hook) (type : DatumType) (attr : α) (fault : Fault) : Prop :=
  (reader attr).decode hook type = .error fault ∧
    (tree attr >>= fun t => t.reader.decode hook type) = .error fault

variable [Parted α] [LawfulParted α] {hook : Hook} {attr : α} {type : DatumType} {datum : Datum}
  {position : Position} {old : View}

theorem decode_put_of_read (hhook : hook.OnlyTimestamps) (h : (reader attr).decode hook type = .ok datum)
    (hpart : (Form.view attr).part? position = some old) :
    ∃ destination, (Destination.datum type).at? position = some destination ∧
      (∃ datum, destination.read hook old.reader = .ok datum) ∧
      ∀ (part : α) (fault : Fault), destination.read hook (reader part) = .error fault →
        (reader (put part position attr)).decode hook type = .error fault := by
  have hread : (Destination.datum type).read hook (Form.view attr).reader = .ok datum := h
  obtain ⟨destination, hdestination, hold, hfails⟩ := View.exists_readsPart hhook hread hpart
  refine ⟨destination, hdestination, hold, fun part fault hfault => ?_⟩
  rw [reader, view_put]
  exact hfails (Form.view part) fault hfault

theorem tree_put_of_tree {t : Tree} (h : tree attr = .ok t)
    (hpart : (Form.view attr).part? position = some old) :
    ∃ f : Tree → Tree, ∀ part : α, tree (put part position attr) = f <$> tree part := by
  obtain ⟨f, hf⟩ := View.exists_tree_put h hpart
  refine ⟨f, fun part => ?_⟩
  rw [tree, view_put]
  exact hf (Form.view part)

theorem fails_with_put_fault (hhook : hook = .none ∨ hook = .timestamps)
    (h : (reader attr).decode hook type = .ok datum)
    (hpart : (Form.view attr).part? position = some old) (part : α) :
    ∃ destination, (Destination.datum type).at? position = some destination ∧
      (∀ set, Form.view part = .set set →
        FailsAlike hook type (put part position attr) (.unsupportedSet set)) ∧
      (Form.view part = .empty →
        (tree (put part position attr) >>= fun t => t.reader.decode hook type) = .error .emptyAttribute ∧
          (reader (put part position attr)).decode hook type =
            .error (if destination = .datum .timestamp then
              .mismatch "string field for timestamp" Kind.unsupported.name else .emptyAttribute)) ∧
      ∀ text, Form.view part = .number text → (∀ n, Number.read text ≠ .ok n) →
        destination.takesNumber = true →
          FailsAlike hook type (put part position attr) (.invalidNumber text) := by
  have honly := Hook.onlyTimestamps_of_standard hhook
  obtain ⟨t, ht, -⟩ := (decode_eq_ok_iff honly).mp h
  obtain ⟨f, hf⟩ := tree_put_of_tree ht hpart
  obtain ⟨destination, hdestination, ⟨_, hold⟩, hfails⟩ := decode_put_of_read honly h hpart
  refine ⟨destination, hdestination, fun set hset => ?_, fun hempty => ?_, fun text htext hread htakes => ?_⟩
  · have hplace : (reader (put part position attr)).decode hook type = .error (.unsupportedSet set) := by
      refine hfails part _ ?_
      rw [reader, hset]
      exact Destination.read_set hook destination set
    -- The tree keeps the set, so that both ways are one.
    have htree : tree (put part position attr) = .ok (f (.set set)) := by
      rw [hf, tree, hset]
      rfl
    have hreader : reader (put part position attr) = (f (.set set)).reader := View.reader_of_tree htree
    refine ⟨hplace, ?_⟩
    rw [htree]
    rwa [hreader] at hplace
  · refine ⟨?_, hfails part _ ?_⟩
    · rw [hf, tree, hempty]
      rfl
    · rw [reader, hempty]
      exact Destination.read_empty hhook hold
  · obtain ⟨fault, hfault⟩ := exists_error_iff.mpr hread
    have hinvalid : Number.read text = .error (.invalidNumber text) :=
      View.read_of_isFaulty (View.isFaulty_of_read hfault)
    refine ⟨hfails part _ ?_, ?_⟩
    · rw [reader, htext]
      exact Destination.read_number honly hinvalid htakes
    · rw [hf, tree, htext, View.tree, hinvalid]
      rfl

def sailings : Members :=
  { list? := some [{ list? := some [{ string? := some "2020-01-01T00:30:00Z" }], stringSet? := some ["hidden"] },
      { null? := some true }] }

def halfPast : Instant := (Instant.ofUnix? 1577838600 0).get (by decide)

theorem decode_sailings :
    (reader sailings).decode .timestamps (.list (.list .timestamp)) =
      .ok (.list [.list [.timestamp halfPast], .null]) := by
  have hread : Instant.read "2020-01-01T00:30:00Z" = .ok halfPast := by decide +kernel
  have hmoment : (View.string "2020-01-01T00:30:00Z").reader.decode .timestamps .timestamp =
      .ok (.timestamp halfPast) := by
    refine (Reader.decode_eq ..).trans (Reader.consult_of_answer rfl ?_)
    show (do return some (Datum.timestamp (← Instant.read "2020-01-01T00:30:00Z"))) = _
    rw [hread]
    rfl
  have hmoments : (View.list [.string "2020-01-01T00:30:00Z"]).reader.decode .timestamps (.list .timestamp) =
      .ok (.list [.timestamp halfPast]) := by
    rw [View.reader_list, Reader.decode_ofItems Hook.onlyTimestamps_timestamps, map_eq_ok]
    exact ⟨_, mapM_eq_ok_iff.mpr (.cons hmoment .nil), rfl⟩
  show (View.list [.list [.string "2020-01-01T00:30:00Z"], .null]).reader.decode _ _ = _
  rw [View.reader_list, Reader.decode_ofItems Hook.onlyTimestamps_timestamps, map_eq_ok]
  exact ⟨_, mapM_eq_ok_iff.mpr (.cons hmoments (.cons rfl .nil)), rfl⟩

def switches : Tagged := .map (.singleton "on" (.bool true))

theorem fails_with_put_fault_sailings :
    (reader sailings).decode .timestamps (.list (.list .timestamp)) =
        .ok (.list [.list [.timestamp halfPast], .null]) ∧
      (Form.view sailings).part? [.item 0, .item 0] = some (.string "2020-01-01T00:30:00Z") ∧
      FailsAlike .timestamps (.list (.list .timestamp))
        (put { binarySet? := some [] } [.item 0, .item 0] sailings) (.unsupportedSet .binary) ∧
      (reader (put {} [.item 0, .item 0] sailings)).decode .timestamps (.list (.list .timestamp)) =
        .error (.mismatch "string field for timestamp" "unsupported") ∧
      (reader switches).decode .none .any = .ok (.map (.ofList [("on", .bool true)])) ∧
      (Form.view switches).part? [.field "on"] = some (.bool true) ∧
      (∀ n, Number.read "1,5" ≠ .ok n) ∧
      FailsAlike .none .any (put (.number "1,5") [.field "on"] switches) (.invalidNumber "1,5") := by
  have hpart : (Form.view sailings).part? [.item 0, .item 0] = some (.string "2020-01-01T00:30:00Z") := rfl
  obtain ⟨_, -, hset, -, -⟩ :=
    fails_with_put_fault (.inr rfl) decode_sailings hpart { binarySet? := some [] }
  obtain ⟨_, hmoment, -, hempty, -⟩ := fails_with_put_fault (.inr rfl) decode_sailings hpart {}
  cases hmoment
  have hnumber : ∀ n, Number.read "1,5" ≠ .ok n := by
    have hfault : Number.read "1,5" = .error (.invalidNumber "1,5") := by decide +kernel
    simp [hfault]
  have hon : (reader switches).decode .none .any = .ok (.map (.ofList [("on", .bool true)])) := rfl
  have honpart : (Form.view switches).part? [.field "on"] = some (.bool true) := rfl
  obtain ⟨_, hany, -, -, hinvalid⟩ := fails_with_put_fault (.inl rfl) hon honpart (.number "1,5")
  cases hany
  exact ⟨decode_sailings, hpart, hset .binary rfl, (hempty rfl).2, hon, honpart, hnumber,
    hinvalid "1,5" rfl hnumber rfl⟩

end Attribute

end AttributeCodec
