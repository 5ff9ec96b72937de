import AttributeCodec.Proofs.Tree.Normal

namespace AttributeCodec

namespace Number

open Binary64 (Holds)

theorem unsignedZero_of_narrowed {n : Number} (h : n.narrowed = n) : n.toBinary64.unsignedZero = n.toBinary64 := by
  rw [← toBinary64_ofBinary64]
  exact congrArg toBinary64 h

theorem holds_of_toInt64 {n : Number} (h : n.narrowed = n) {i : Int64} (hi : n.toInt64 = .ok i) :
    Holds i.toInt := by
  rw [← h] at hi
  exact ⟨_, toInt?_of_toInt64 hi⟩

theorem holds_of_toUInt64 {n : Number} (h : n.narrowed = n) {u : UInt64} (hu : n.toUInt64 = .ok u) :
    Holds u.toNat := by
  rw [← h] at hu
  exact ⟨_, toInt?_of_toUInt64 hu⟩

end Number

namespace Tree

open Binary64 (Holds)

theorem forall_normal_of_list {items : List Tree} (h : (list items).normal = list items) :
    ∀ item ∈ items, item.normal = item := by
  rw [normal_list, list.injEq] at h
  exact List.map_inj_left.mp (h.trans (List.map_id items).symm)

theorem forall_normal_of_map {entries : Entries Tree} (h : (map entries).normal = map entries) :
    ∀ entry ∈ entries.toList, entry.2.normal = entry.2 := by
  rw [normal_map, map.injEq] at h
  have hlist : entries.toList.map (fun entry => (entry.1, entry.2.normal)) = entries.toList.map id := by
    rw [← Entries.toList_map, h, List.map_id]
  exact fun entry hentry => congrArg Prod.snd (List.map_inj_left.mp hlist entry hentry)

theorem narrowed_of_normal {n : Number} (h : (number n).normal = number n) : n.narrowed = n := by
  rw [normal, number.injEq] at h
  exact h

variable {t : Tree}

theorem holds_of_reader_int (h : t.normal = t) {i : Int64} (hi : t.reader.int = .ok i) : Holds i.toInt := by
  cases t with
  | number n => exact Number.holds_of_toInt64 (narrowed_of_normal h) hi
  | _ => cases hi

theorem holds_of_reader_uint (h : t.normal = t) {u : UInt64} (hu : t.reader.uint = .ok u) :
    Holds u.toNat := by
  cases t with
  | number n => exact Number.holds_of_toUInt64 (narrowed_of_normal h) hu
  | _ => cases hu

theorem unsignedZero_of_reader_float (h : t.normal = t) {x : Binary64} (hx : t.reader.float = .ok x) :
    x.unsignedZero = x := by
  cases t with
  | number n =>
    cases hx
    exact Number.unsignedZero_of_narrowed (narrowed_of_normal h)
  | _ => cases hx

theorem unsignedZero_of_reader_complex (h : t.normal = t) {re im : Binary64}
    (hz : t.reader.complex = .ok (re, im)) : re.unsignedZero = re ∧ im.unsignedZero = im := by
  cases t with
  | list items =>
    have hall := forall_normal_of_list h
    rw [reader_list] at hz
    replace hz : Reader.complexOfItems (items.map reader) = .ok (re, im) := hz
    match items with
    | [a, b] =>
      simp only [List.map_cons, List.map_nil, Reader.complexOfItems, bind_eq_ok, pure_eq_ok, Prod.mk.injEq] at hz
      obtain ⟨_, hre, _, him, rfl, rfl⟩ := hz
      exact ⟨unsignedZero_of_reader_float (hall a (by simp)) hre,
        unsignedZero_of_reader_float (hall b (by simp)) him⟩
    | [] | [_] | _ :: _ :: _ :: _ => cases hz
  | complex => cases h
  | _ => cases hz

theorem exists_of_reader_list {readers : List Reader} (h : t.reader.list = .ok readers) :
    ∃ items, t = list items := by
  cases t with
  | list items => exact ⟨items, rfl⟩
  | _ => cases h

theorem exists_of_reader_map {readers : Entries Reader} (h : t.reader.map = .ok readers) :
    ∃ entries, t = map entries := by
  cases t with
  | map entries => exact ⟨entries, rfl⟩
  | _ => cases h

end Tree

end AttributeCodec
