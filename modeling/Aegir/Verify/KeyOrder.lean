import Aegir.Verify.SameBlocks

/-!
# The order of the entries of a block

`readyaml` acts on an entry of a block when it comes to it, with the `id` that it has read until then.
For two orders of distinct keys, the order makes no difference if and only if every entry that is stored
for the value of `id` stands behind it in both orders, or in none (`order_iff`).
-/

namespace Aegir

/-- The keys of the devices. -/
def DeviceKey (key : List Char) : Prop :=
  key = chars "referencedevice" ∨ chars "signaldevice" <+: key

instance (key : List Char) : Decidable (DeviceKey key) := inferInstanceAs (Decidable (_ ∨ _))

/-- Behind `id: id`, the entry is stored. -/
def StoredFor (id : List Char) (e : Entry) : Prop :=
  e.1 = chars "default" ∧ (id = chars "num_samples" ∨ id = chars "freq" ∨ id = chars "samplerate") ∨
    id = chars "devices" ∧ DeviceKey e.1

instance (id : List Char) (e : Entry) : Decidable (StoredFor id e) :=
  inferInstanceAs (Decidable (_ ∨ _))

/-- The entries that are stored for the value of `id` stand behind it in both or in none. -/
def SameBehindId (es es' : List Entry) : Prop :=
  ∀ id e, StoredFor id e →
    (List.Sublist [(chars "id", id), e] es ↔ List.Sublist [(chars "id", id), e] es')

/-! ## What is stored -/

/-- The settings that are stored. -/
def stored (es : List Entry) : List Setting :=
  (settingsFrom [] es).filter fun e => StoredFor e.id (e.key, e.value)

theorem names_ne' : chars "id" ≠ chars "default" ∧ ¬ DeviceKey (chars "id") ∧
    ¬ DeviceKey (chars "default") ∧ ¬ (chars "devices" = chars "num_samples" ∨
      chars "devices" = chars "freq" ∨ chars "devices" = chars "samplerate") := by
  unfold DeviceKey chars
  decide

section
variable {D : Type*} (num : NumberReader D) (ops : ClOps) {es es' : List Entry}

theorem store_of_not {e : Setting} (h : ¬ StoredFor e.id (e.key, e.value)) :
    Setting.store num ops e = ops := by
  simp only [StoredFor, DeviceKey, not_or, not_and] at h
  rw [Setting.store, YamlReader.setDefault]
  split_ifs with hdefault hnum hfreq hrate hdevices
  · exact absurd hnum (h.1 hdefault).1
  · exact absurd hfreq (h.1 hdefault).2.1
  · exact absurd hrate (h.1 hdefault).2.2
  · rfl
  · exact absurd hdevices.2 (h.2 hdevices.1).1
  · rfl

theorem foldl_stored : (settingsFrom [] es).foldl (Setting.store num) ops =
    (stored es).foldl (Setting.store num) ops := by
  rw [stored]
  induction settingsFrom [] es generalizing ops with
  | nil => rfl
  | cons e s ih =>
    by_cases he : StoredFor e.id (e.key, e.value)
    · rw [List.filter_cons_of_pos (by simpa using he), List.foldl_cons, List.foldl_cons, ih]
    · rw [List.filter_cons_of_neg (by simpa using he), List.foldl_cons, store_of_not num ops he, ih]

theorem devicesOf_stored : devicesOf (settingsFrom [] es) = devicesOf (stored es) := by
  rw [stored, devicesOf, devicesOf, List.filter_filter]
  congr 1
  refine List.filter_congr fun e _ => ?_
  rw [Bool.eq_iff_iff, Bool.and_eq_true, decide_eq_true_eq, decide_eq_true_eq]
  exact ⟨fun h => ⟨h, .inr h⟩, fun h => h.1⟩

end

theorem sameValues_stored_iff {es es' : List Entry} :
    SameValues (settingsFrom [] es) (settingsFrom [] es') ↔ SameValues (stored es) (stored es') := by
  rw [← sameValues_iff, ← sameValues_iff]
  simp only [foldl_stored, devicesOf_stored]

/-! ## Behind `id` -/

section
variable {es es₁ es₂ : List Entry} {id : List Char}

theorem stored_of_notMem (h : chars "id" ∉ es.map Prod.fst) : stored es = [] := by
  have hnil : ∀ e, ¬ StoredFor [] e := by
    intro e
    have hne : [] ≠ chars "num_samples" ∧ [] ≠ chars "freq" ∧ [] ≠ chars "samplerate" ∧
        [] ≠ chars "devices" := by
      unfold chars
      decide
    simp [StoredFor, hne]
  rw [stored, settingsFrom_of_notMem h, List.filter_eq_nil_iff]
  intro e he
  obtain ⟨e', -, rfl⟩ := List.mem_map.mp he
  simpa using hnil e'

theorem stored_eq (h₁ : chars "id" ∉ es₁.map Prod.fst) (h₂ : chars "id" ∉ es₂.map Prod.fst) :
    stored (es₁ ++ (chars "id", id) :: es₂) =
      (es₂.filter fun e => StoredFor id e).map fun e => ⟨id, e.1, e.2⟩ := by
  have hbefore := stored_of_notMem h₁
  rw [stored] at hbefore
  rw [stored, settingsFrom_append, List.filter_append, hbefore, List.nil_append, settingsFrom,
    if_pos rfl, settingsFrom_of_notMem h₂, List.filter_map]
  rfl

theorem sublist_iff (h₁ : chars "id" ∉ es₁.map Prod.fst) (h₂ : chars "id" ∉ es₂.map Prod.fst)
    {id' : List Char} {e : Entry} :
    List.Sublist [(chars "id", id'), e] (es₁ ++ (chars "id", id) :: es₂) ↔ id' = id ∧ e ∈ es₂ := by
  have hno₁ : (chars "id", id') ∉ es₁ := fun h => h₁ (List.mem_map_of_mem (f := Prod.fst) h)
  have hno₂ : (chars "id", id') ∉ es₂ := fun h => h₂ (List.mem_map_of_mem (f := Prod.fst) h)
  constructor
  · intro h
    obtain ⟨l, l', hl, hsub, hsub'⟩ := List.sublist_append_iff.mp h
    cases l with
    | cons a l =>
      cases (List.cons.inj hl).1
      exact absurd (hsub.subset List.mem_cons_self) hno₁
    | nil =>
      subst hl
      rcases List.sublist_cons_iff.mp hsub' with hsub' | ⟨r, hr, hsub'⟩
      · exact absurd (hsub'.subset List.mem_cons_self) hno₂
      · obtain ⟨hid, rfl⟩ := List.cons.inj hr
        exact ⟨congrArg Prod.snd hid, List.singleton_sublist.mp hsub'⟩
  · rintro ⟨rfl, he⟩
    exact ((List.singleton_sublist.mpr he).cons_cons _).trans (List.sublist_append_right _ _)

theorem exists_id (hkeys : (es.map Prod.fst).Nodup) (hid : chars "id" ∈ es.map Prod.fst) :
    ∃ es₁ id es₂, es = es₁ ++ (chars "id", id) :: es₂ ∧ chars "id" ∉ es₁.map Prod.fst ∧
      chars "id" ∉ es₂.map Prod.fst := by
  obtain ⟨⟨k, id⟩, he, rfl⟩ := List.mem_map.mp hid
  obtain ⟨es₁, es₂, rfl⟩ := List.append_of_mem he
  rw [List.map_append, List.map_cons, List.nodup_append] at hkeys
  obtain ⟨-, hcons, hdisjoint⟩ := hkeys
  exact ⟨es₁, id, es₂, rfl, fun h => hdisjoint _ h _ List.mem_cons_self rfl,
    (List.nodup_cons.mp hcons).1⟩

end

/-! ## Two orders -/

/-- Two orders of the entries of a block with distinct keys, in which the devices come in the same
order. -/
structure Reordered (es es' : List Entry) : Prop where
  perm : es.Perm es'
  keys : (es.map Prod.fst).Nodup
  devices : (es.filter fun e => DeviceKey e.1) = es'.filter fun e => DeviceKey e.1

namespace Reordered

variable {es es' es₁ es₂ es₁' es₂' : List Entry} {id id' : List Char}

theorem symm (h : Reordered es es') : Reordered es' es :=
  ⟨h.perm.symm, (h.perm.map Prod.fst).nodup_iff.mp h.keys, h.devices.symm⟩

/-- There is one entry with a key. -/
theorem eq_of_key (h : Reordered es es') {e e' : Entry} (he : e ∈ es) (he' : e' ∈ es')
    (hkey : e.1 = e'.1) : e = e' :=
  List.inj_on_of_nodup_map h.keys he (h.perm.symm.subset he') hkey

/-- The entries that are stored for an `id` come in the same order. -/
theorem filter_storedFor (h : Reordered es es') (id : List Char) :
    (es.filter fun e => StoredFor id e) = es'.filter fun e => StoredFor id e := by
  obtain ⟨-, -, -, hdevices⟩ := names_ne'
  by_cases hid : id = chars "devices"
  · subst hid
    have hstored : ∀ e : Entry, StoredFor (chars "devices") e ↔ DeviceKey e.1 := by
      simp [StoredFor, hdevices]
    simpa only [hstored] using h.devices
  · -- only `default` can be stored, and there is one
    have hkey : ∀ e : Entry, StoredFor id e → e.1 = chars "default" := by
      rintro e (⟨he, -⟩ | ⟨hdev, -⟩)
      · exact he
      · exact absurd hdev hid
    have hperm := h.perm.filter fun e => decide (StoredFor id e)
    have hnodup : (es.filter fun e => decide (StoredFor id e)).Nodup :=
      (List.Nodup.of_map _ h.keys).filter _
    cases hfilter : es.filter fun e => decide (StoredFor id e) with
    | nil =>
      rw [hfilter] at hperm
      exact (List.nil_perm.mp hperm).symm
    | cons e l =>
      cases l with
      | nil =>
        rw [hfilter] at hperm
        exact (List.singleton_perm.mp hperm)
      | cons e' l =>
        rw [hfilter] at hnodup
        have hmem : ∀ a ∈ e :: e' :: l, a ∈ es ∧ StoredFor id a := by
          rw [← hfilter]
          simp
        have he := hmem e (by simp)
        have he' := hmem e' (by simp)
        have heq := List.inj_on_of_nodup_map h.keys he.1 he'.1 ((hkey e he.2).trans (hkey e' he'.2).symm)
        simp [heq] at hnodup

theorem behind_sublist (es₁ : List Entry) (id : List Char) (es₂ : List Entry) :
    List.Sublist es₂ (es₁ ++ (chars "id", id) :: es₂) :=
  (List.sublist_cons_self _ _).trans (List.sublist_append_right _ _)

/-- Behind `id`, the last of the entries that are stored for it stand. -/
theorem filter_behind (h : Reordered (es₁ ++ (chars "id", id) :: es₂) (es₁' ++ (chars "id", id) :: es₂'))
    (hlen : (es₂.filter fun e => StoredFor id e).length =
      (es₂'.filter fun e => StoredFor id e).length) :
    (es₂.filter fun e => StoredFor id e) = es₂'.filter fun e => StoredFor id e := by
  obtain ⟨hid, hdevice, -, -⟩ := names_ne'
  have hnot : ∀ v, ¬ StoredFor id (chars "id", v) := by
    rintro v (⟨h, -⟩ | ⟨-, h⟩)
    · exact hid h
    · exact hdevice h
  have hfilter := h.filter_storedFor id
  rw [List.filter_append, List.filter_append, List.filter_cons_of_neg (by simpa using hnot id),
    List.filter_cons_of_neg (by simpa using hnot id)] at hfilter
  have hsuffix : (es₂.filter fun e => decide (StoredFor id e)) <:+
      es₁'.filter (fun e => decide (StoredFor id e)) ++ es₂'.filter fun e => decide (StoredFor id e) :=
    hfilter ▸ List.suffix_append _ _
  exact (List.suffix_of_suffix_length_le hsuffix (List.suffix_append _ _) hlen.le).eq_of_length hlen

theorem length_filter_behind
    (h : Reordered (es₁ ++ (chars "id", id) :: es₂) (es₁' ++ (chars "id", id) :: es₂'))
    (hmem : ∀ e, StoredFor id e → (e ∈ es₂ ↔ e ∈ es₂')) :
    (es₂.filter fun e => StoredFor id e).length =
      (es₂'.filter fun e => StoredFor id e).length := by
  have hnodup := (List.Nodup.of_map _ h.keys).sublist (behind_sublist es₁ id es₂)
  have hnodup' := (List.Nodup.of_map _ h.symm.keys).sublist (behind_sublist es₁' id es₂')
  refine List.Perm.length_eq ((List.perm_ext_iff_of_nodup (hnodup.filter _) (hnodup'.filter _)).mpr
    fun e => ?_)
  simp only [List.mem_filter, decide_eq_true_eq]
  exact and_congr_left (hmem e)

/-- Both orders have the same `id`, if they have one. -/
theorem exists_ids (h : Reordered es es') (hid : chars "id" ∈ es.map Prod.fst) :
    ∃ es₁ es₁' id es₂ es₂', es = es₁ ++ (chars "id", id) :: es₂ ∧
      es' = es₁' ++ (chars "id", id) :: es₂' ∧ chars "id" ∉ es₁.map Prod.fst ∧
        chars "id" ∉ es₂.map Prod.fst ∧ chars "id" ∉ es₁'.map Prod.fst ∧
          chars "id" ∉ es₂'.map Prod.fst := by
  obtain ⟨es₁, id, es₂, rfl, h₁, h₂⟩ := exists_id h.keys hid
  obtain ⟨es₁', id', es₂', rfl, h₁', h₂'⟩ :=
    exists_id h.symm.keys ((h.perm.map Prod.fst).subset hid)
  have hids : (chars "id", id) = (chars "id", id') := h.eq_of_key (by simp) (by simp) rfl
  cases hids
  exact ⟨es₁, es₁', id, es₂, es₂', rfl, rfl, h₁, h₂, h₁', h₂'⟩

theorem stored_eq (h : Reordered es es') (hsame : SameBehindId es es') : stored es = stored es' := by
  by_cases hid : chars "id" ∈ es.map Prod.fst
  · obtain ⟨es₁, es₁', id, es₂, es₂', rfl, rfl, h₁, h₂, h₁', h₂'⟩ := h.exists_ids hid
    have hmem : ∀ e, StoredFor id e → (e ∈ es₂ ↔ e ∈ es₂') := by
      intro e he
      have hbehind := hsame id e he
      rwa [sublist_iff h₁ h₂, sublist_iff h₁' h₂', and_iff_right rfl, and_iff_right rfl] at hbehind
    rw [Aegir.stored_eq h₁ h₂, Aegir.stored_eq h₁' h₂', h.filter_behind (h.length_filter_behind hmem)]
  · have hid' : chars "id" ∉ es'.map Prod.fst := fun hid' =>
      hid ((h.perm.map Prod.fst).symm.subset hid')
    rw [stored_of_notMem hid, stored_of_notMem hid']

theorem idBehind_eq (h : Reordered es es') : idBehind [] es = idBehind [] es' := by
  by_cases hid : chars "id" ∈ es.map Prod.fst
  · obtain ⟨es₁, es₁', id, es₂, es₂', rfl, rfl, -, h₂, -, h₂'⟩ := h.exists_ids hid
    rw [idBehind_append, idBehind_append, idBehind, idBehind, if_pos rfl, if_pos rfl,
      idBehind_of_notMem h₂, idBehind_of_notMem h₂']
  · have hid' : chars "id" ∉ es'.map Prod.fst := fun hid' =>
      hid ((h.perm.map Prod.fst).symm.subset hid')
    rw [idBehind_of_notMem hid, idBehind_of_notMem hid']

theorem devicesOf_map {l : List Entry} (h : ∀ e ∈ l, DeviceKey e.1) :
    devicesOf (l.map fun e => ⟨chars "devices", e.1, e.2⟩) = l.map Prod.snd := by
  rw [devicesOf, List.filter_eq_self.mpr, List.map_map]
  · rfl
  · intro e he
    obtain ⟨e', he', rfl⟩ := List.mem_map.mp he
    exact decide_eq_true ⟨rfl, h e' he'⟩

/-- An entry that is stored stands behind `id` in the other order too if the same is stored there. -/
theorem behind_of_stored (h : Reordered es es')
    (hvalues : SameValues (stored es) (stored es')) {id : List Char} {e : Entry}
    (he : StoredFor id e) (hbehind : List.Sublist [(chars "id", id), e] es) :
    List.Sublist [(chars "id", id), e] es' := by
  obtain ⟨-, -, -, hthree⟩ := names_ne'
  have hid : chars "id" ∈ es.map Prod.fst :=
    List.mem_map_of_mem (f := Prod.fst) (hbehind.subset List.mem_cons_self)
  obtain ⟨es₁, es₁', id', es₂, es₂', rfl, rfl, h₁, h₂, h₁', h₂'⟩ := h.exists_ids hid
  obtain ⟨rfl, hmem⟩ := (sublist_iff h₁ h₂).mp hbehind
  rw [sublist_iff h₁' h₂', and_iff_right rfl]
  rw [Aegir.stored_eq h₁ h₂, Aegir.stored_eq h₁' h₂'] at hvalues
  have hfilter : e ∈ es₂.filter fun e => decide (StoredFor id e) :=
    List.mem_filter.mpr ⟨hmem, decide_eq_true he⟩
  rcases he with ⟨hkey, hids⟩ | ⟨rfl, hdevice⟩
  · by_contra hno
    -- the value of `default` would be stored in one order only
    have hnil : (es₂'.filter fun e => decide (StoredFor id e)) = [] := by
      rw [List.filter_eq_nil_iff]
      intro e' he' hstored
      have hkey' : e'.1 = chars "default" := by
        rcases of_decide_eq_true hstored with ⟨hkey', -⟩ | ⟨rfl, -⟩
        · exact hkey'
        · exact absurd hids hthree
      have heq : e = e' := h.eq_of_key ((behind_sublist es₁ id es₂).subset hmem)
        ((behind_sublist es₁' id es₂').subset he') (hkey.trans hkey'.symm)
      exact hno (heq ▸ he')
    rw [hnil] at hvalues
    obtain ⟨name, hname, hlast⟩ := hvalues.default hids
    exact lastValue_ne_none (List.mem_map_of_mem hfilter) hname hkey hlast
  · have hlen := congrArg List.length hvalues.devices
    rw [devicesOf_map, devicesOf_map, List.length_map, List.length_map] at hlen
    · rw [h.filter_behind hlen] at hfilter
      exact (List.mem_filter.mp hfilter).1
    all_goals
      intro e' he'
      rcases of_decide_eq_true (List.mem_filter.mp he').2 with ⟨-, hids⟩ | ⟨-, hdevice'⟩
      · exact absurd hids hthree
      · exact hdevice'

/-- For distinct keys, the effect is the same if and only if the same entries stand behind `id`. -/
theorem sameStored_iff (h : Reordered es es') : SameStored es es' ↔ SameBehindId es es' := by
  constructor
  · intro hsame
    have hvalues := sameValues_stored_iff.mp hsame.values
    exact fun id e he => ⟨h.behind_of_stored hvalues he, h.symm.behind_of_stored hvalues.symm he⟩
  · intro hsame
    exact ⟨sameValues_stored_iff.mpr (h.stored_eq hsame ▸ .refl _), h.idBehind_eq ▸ .refl _⟩

end Reordered

/-- Two orders of the entries of a block give the same if and only if the last values, the devices and
the last name in them are the same. If no two keys are the same up to a NUL, that is the case if and
only if what is stored for the value of `id` stands behind it in both or in none. -/
theorem order_iff {b b' : List Entry} (hperm : b.Perm b')
    (hdevices : (b.filter fun e => DeviceKey (cstring e.1)) =
      b'.filter fun e => DeviceKey (cstring e.1)) :
    (SameRead b b' ↔ SameStored (cutEntries b) (cutEntries b')) ∧
      ((b.map fun e => cstring e.1).Nodup →
        (SameRead b b' ↔ SameBehindId (cutEntries b) (cutEntries b'))) := by
  refine ⟨sameRead_iff, fun hkeys => ?_⟩
  have hreordered : Reordered (cutEntries b) (cutEntries b') := by
    refine ⟨hperm.map _, ?_, ?_⟩
    · rw [cutEntries, List.map_map]
      exact hkeys
    · rw [cutEntries, cutEntries, List.filter_map, List.filter_map]
      exact congrArg (List.map (Prod.map cstring cstring)) hdevices
  rw [sameRead_iff, hreordered.sameStored_iff]

/-- A block with its `label` first. -/
def labelFirst : List Entry :=
  [(chars "label", []), (chars "id", chars "freq"), (chars "default", chars "95.5e6")]

/-- The same block with its `id` first. -/
def idFirst : List Entry :=
  [(chars "id", chars "freq"), (chars "label", []), (chars "default", chars "95.5e6")]

/-- A `label` may come before `id` as well. -/
theorem order_iff_label : SameRead labelFirst idFirst := by
  have hperm : labelFirst.Perm idFirst := .swap _ _ _
  have hdevices : (labelFirst.filter fun e => DeviceKey (cstring e.1)) =
      idFirst.filter fun e => DeviceKey (cstring e.1) := by decide +kernel
  have hkeys : (labelFirst.map fun e => cstring e.1).Nodup := by decide +kernel
  refine ((order_iff hperm hdevices).2 hkeys).mpr ?_
  have hcut : cutEntries labelFirst = [(chars "label", [])] ++ (chars "id", chars "freq") ::
      [(chars "default", chars "95.5e6")] := by decide +kernel
  have hcut' : cutEntries idFirst = [] ++ (chars "id", chars "freq") ::
      [(chars "label", []), (chars "default", chars "95.5e6")] := by decide +kernel
  have hlabel : ∀ id, ¬ StoredFor id (chars "label", []) := by
    have hne : chars "label" ≠ chars "default" ∧ ¬ DeviceKey (chars "label") := by decide +kernel
    simp [StoredFor, hne]
  intro id e he
  have hne : e ≠ (chars "label", []) := fun h => hlabel id (h ▸ he)
  rw [hcut, hcut', sublist_iff (by decide +kernel) (by decide +kernel),
    sublist_iff (by decide +kernel) (by decide +kernel), List.mem_cons (b := (chars "label", [])),
    or_iff_right hne]

/-- With `default` before `id`, the frequency is not read. -/
theorem not_order : ¬ ∀ b b' : List Entry, b.Perm b' → (b.map Prod.fst).Nodup →
    ((b.filter fun e => DeviceKey (cstring e.1)) = b'.filter fun e => DeviceKey (cstring e.1)) →
    SameRead b b' := by
  intro h
  have hres := h [(chars "id", chars "freq"), (chars "default", chars "95.5e6")]
    [(chars "default", chars "95.5e6"), (chars "id", chars "freq")] (.swap _ _ _)
    (by decide +kernel) (by decide +kernel) Unit ones zeros .only BlockPlace.only_ofBlock
  rw [BlockPlace.readyaml_only, BlockPlace.readyaml_only] at hres
  exact absurd hres (by decide +kernel)

end Aegir
