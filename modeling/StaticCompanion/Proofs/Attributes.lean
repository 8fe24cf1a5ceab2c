import StaticCompanion.ClassFile.Basic
import StaticCompanion.Proofs.Layout
import StaticCompanion.Proofs.Pool

namespace StaticCompanion

namespace Attribute
variable {p q : ConstantPool} {name : String} {attr : Attribute}

theorem nameIn_eq_ok : attr.nameIn p = .ok name ↔ p.text attr.name = .ok name := mapError_eq_ok

theorem nameIn_of_le (hle : p ≤ q) (h : attr.nameIn p = .ok name) : attr.nameIn q = .ok name :=
  nameIn_eq_ok.mpr (ConstantPool.text_of_le hle (nameIn_eq_ok.mp h))

theorem sort_eq_some_iff {sort : AttributeName} :
    attr.sort p = .ok (some sort) ↔ attr.nameIn p = .ok sort.text := by
  simp only [Attribute.sort, except_bind_eq_ok, except_pure_eq_ok,
    AttributeName.ofText?_eq_some_iff]
  constructor
  · rintro ⟨text, htext, rfl⟩
    exact htext
  · intro hname
    exact ⟨_, hname, rfl⟩

theorem sort_of_le (hle : p ≤ q) {sort : Option AttributeName} (h : attr.sort p = .ok sort) :
    attr.sort q = .ok sort := by
  simp only [Attribute.sort, except_bind_eq_ok] at h ⊢
  obtain ⟨text, htext, hsort⟩ := h
  exact ⟨text, nameIn_of_le hle htext, hsort⟩

theorem sort_of_name {other : Attribute} (h : other.name = attr.name) :
    other.sort p = attr.sort p := by
  simp only [Attribute.sort, Attribute.nameIn, h]

theorem find?_cons_eq_ok {attributes : List Attribute} {found : Option Attribute} :
    Attribute.find? p name (attr :: attributes) = .ok found ↔ ∃ text, attr.nameIn p = .ok text ∧
      (if text = name then found = some attr
        else Attribute.find? p name attributes = .ok found) := by
  simp only [Attribute.find?, except_bind_eq_ok]
  apply exists_congr
  intro text
  apply and_congr_right
  intro _
  by_cases hname : text = name
  · simp only [if_pos hname, except_pure_eq_ok]
    exact eq_comm
  · simp only [if_neg hname]

theorem find?_of_le (hle : p ≤ q) {attributes : List Attribute} {found : Option Attribute}
    (h : Attribute.find? p name attributes = .ok found) :
    Attribute.find? q name attributes = .ok found := by
  induction attributes with
  | nil => exact h
  | cons attr attributes ih =>
    obtain ⟨text, htext, hrest⟩ := find?_cons_eq_ok.mp h
    refine find?_cons_eq_ok.mpr ⟨text, nameIn_of_le hle htext, ?_⟩
    by_cases hname : text = name
    · rwa [if_pos hname] at hrest ⊢
    · rw [if_neg hname] at hrest ⊢
      exact ih hrest

/-- The attribute goes, or it keeps its name. -/
def KeepsName (attr : Attribute) : Option Attribute → Prop
  | some kept => kept.name = attr.name
  | none => True

theorem keepsName_self (attr : Attribute) : attr.KeepsName (some attr) := rfl

/-- An attribute that stays is changed as related, and it stays if it has the wanted name. -/
def ChangesTo (p : ConstantPool) (name : String) (R : Attribute → Attribute → Prop)
    (attr : Attribute) : Option Attribute → Prop
  | some changed => R attr changed
  | none => attr.nameIn p ≠ .ok name

theorem find?_reduceOption {R : Attribute → Attribute → Prop}
    (hsame : ∀ a b, R a b → b.name = a.name) {attributes : List Attribute}
    {options : List (Option Attribute)}
    (hoptions : List.Forall₂ (ChangesTo p name R) attributes options)
    {found : Option Attribute} (h : Attribute.find? p name attributes = .ok found) :
    ∃ found', Attribute.find? p name options.reduceOption = .ok found' ∧
      Option.Rel R found found' := by
  induction hoptions with
  | nil =>
    cases h
    exact ⟨none, rfl, .none⟩
  | @cons a o attributes options hchange _ ih =>
    obtain ⟨text, htext, hrest⟩ := find?_cons_eq_ok.mp h
    cases o with
    | none =>
      have hother : text ≠ name := by
        intro hname
        exact hchange (hname ▸ htext)
      rw [if_neg hother] at hrest
      exact ih hrest
    | some b =>
      have hname : b.nameIn p = .ok text := by
        rw [nameIn_eq_ok, hsame a b hchange]
        exact nameIn_eq_ok.mp htext
      by_cases hsought : text = name
      · rw [if_pos hsought] at hrest
        subst hrest
        exact ⟨some b, find?_cons_eq_ok.mpr ⟨text, hname, by rw [if_pos hsought]⟩, .some hchange⟩
      · rw [if_neg hsought] at hrest
        obtain ⟨found', hfound, hrel⟩ := ih hrest
        exact ⟨found', find?_cons_eq_ok.mpr ⟨text, hname, by rwa [if_neg hsought]⟩, hrel⟩

/-- When each attribute is changed into one of the same name, the changed one is found. -/
theorem find?_forall₂ {R : Attribute → Attribute → Prop} (hsame : ∀ a b, R a b → b.name = a.name)
    {attributes attributes' : List Attribute} (hchange : List.Forall₂ R attributes attributes')
    {found : Option Attribute} (h : Attribute.find? p name attributes = .ok found) :
    ∃ found', Attribute.find? p name attributes' = .ok found' ∧ Option.Rel R found found' := by
  have hsome : List.Forall₂ (ChangesTo p name R) attributes (attributes'.map some) := by
    rwa [List.forall₂_map_right_iff]
  have hoptions := find?_reduceOption hsame hsome h
  rwa [List.reduceOption, List.filterMap_map, Function.id_comp, List.filterMap_some] at hoptions

theorem of_find?_eq_some {attributes : List Attribute}
    (h : Attribute.find? p name attributes = .ok (some attr)) :
    attr ∈ attributes ∧ attr.nameIn p = .ok name := by
  induction attributes with
  | nil => cases h
  | cons first attributes ih =>
    obtain ⟨text, htext, hrest⟩ := find?_cons_eq_ok.mp h
    by_cases hname : text = name
    · rw [if_pos hname] at hrest
      obtain rfl := Option.some.inj hrest
      exact ⟨List.mem_cons_self, hname ▸ htext⟩
    · rw [if_neg hname] at hrest
      obtain ⟨hmem, hfound⟩ := ih hrest
      exact ⟨List.mem_cons_of_mem _ hmem, hfound⟩

theorem exists_nameIn_of_sort {sort : Option AttributeName} (h : attr.sort p = .ok sort) :
    ∃ name, attr.nameIn p = .ok name := by
  simp only [Attribute.sort, except_bind_eq_ok] at h
  obtain ⟨name, hname, -⟩ := h
  exact ⟨name, hname⟩

theorem exists_find? {attributes : List Attribute}
    (h : ∀ attr ∈ attributes, ∃ text, attr.nameIn p = .ok text) :
    ∃ found, Attribute.find? p name attributes = .ok found := by
  induction attributes with
  | nil => exact ⟨none, rfl⟩
  | cons first attributes ih =>
    obtain ⟨⟨text, htext⟩, hrest⟩ := List.forall_mem_cons.mp h
    by_cases hname : text = name
    · exact ⟨some first, find?_cons_eq_ok.mpr ⟨text, htext, by rw [if_pos hname]⟩⟩
    · obtain ⟨found, hfound⟩ := ih hrest
      exact ⟨found, find?_cons_eq_ok.mpr ⟨text, htext, by rw [if_neg hname, hfound]⟩⟩

theorem find?_of_kept {attributes : List Attribute} {options : List (Option Attribute)}
    (hchange : List.Forall₂ (fun a o => a.KeepsName o ∧ (a.nameIn p = .ok name → o = some a))
      attributes options) {found : Option Attribute}
    (h : Attribute.find? p name attributes = .ok found) :
    Attribute.find? p name options.reduceOption = .ok found := by
  have hoptions : List.Forall₂ (ChangesTo p name fun a b =>
      b.name = a.name ∧ (a.nameIn p = .ok name → b = a)) attributes options := by
    apply hchange.imp
    intro a o hkept
    cases o with
    | none =>
      intro hname
      cases hkept.2 hname
    | some b =>
      refine ⟨hkept.1, ?_⟩
      intro hname
      exact Option.some.inj (hkept.2 hname)
  obtain ⟨found', hfound, hrel⟩ := find?_reduceOption (fun _ _ h => h.1) hoptions h
  cases hrel with
  | none => exact hfound
  | some hkept => rwa [hkept.2 (of_find?_eq_some h).2] at hfound

end Attribute

namespace Member
variable {p q : ConstantPool} {member : Member}

theorem codeIn_eq_ok {code : Option Code} :
    member.codeIn p = .ok code ↔
      ∃ found, Attribute.find? p AttributeName.code.text member.attributes = .ok found ∧
        match found with
        | none => code = none
        | some attr => ∃ body, Code.format.decode attr.info = .ok body ∧ code = some body := by
  simp only [Member.codeIn, except_bind_eq_ok]
  apply exists_congr
  intro found
  apply and_congr_right
  intro _
  cases found with
  | none => simpa using eq_comm
  | some attr =>
    simp only [except_bind_eq_ok, except_pure_eq_ok]
    apply exists_congr
    intro body
    apply and_congr_right
    intro _
    exact eq_comm

theorem codeIn_of_le (hle : p ≤ q) {code : Option Code} (h : member.codeIn p = .ok code) :
    member.codeIn q = .ok code := by
  obtain ⟨found, hfound, hcode⟩ := codeIn_eq_ok.mp h
  exact codeIn_eq_ok.mpr ⟨found, Attribute.find?_of_le hle hfound, hcode⟩

theorem keyIn_eq_ok {owner : String} {key : MemberKey} :
    member.keyIn owner p = .ok key ↔ key.owner = owner ∧ p.text member.name = .ok key.name ∧
      p.text member.descriptor = .ok key.descriptor := by
  obtain ⟨_, name, descriptor⟩ := key
  simp only [Member.keyIn, Member.nameIn, Member.descriptorIn, except_bind_eq_ok, mapError_eq_ok,
    except_pure_eq_ok, MemberKey.mk.injEq]
  constructor
  · rintro ⟨_, hname, _, hdescriptor, rfl, rfl, rfl⟩
    exact ⟨rfl, hname, hdescriptor⟩
  · rintro ⟨rfl, hname, hdescriptor⟩
    exact ⟨_, hname, _, hdescriptor, rfl, rfl, rfl⟩

theorem keyIn_of_le (hle : p ≤ q) {owner : String} {key : MemberKey}
    (h : member.keyIn owner p = .ok key) : member.keyIn owner q = .ok key := by
  obtain ⟨howner, hname, hdescriptor⟩ := keyIn_eq_ok.mp h
  exact keyIn_eq_ok.mpr
    ⟨howner, ConstantPool.text_of_le hle hname, ConstantPool.text_of_le hle hdescriptor⟩

end Member

theorem ClassFile.name_of_le {file file' : ClassFile} (hle : file.pool ≤ file'.pool)
    (hthis : file'.thisClass = file.thisClass) {name : String} (h : file.name = .ok name) :
    file'.name = .ok name := by
  have hname := ConstantPool.className_of_le hle (mapError_eq_ok.mp h)
  rw [← hthis] at hname
  exact mapError_eq_ok.mpr hname

theorem ClassFile.bootstraps_eq_ok {file : ClassFile} {table : List Bootstrap} :
    file.bootstraps = .ok table ↔ ∃ found,
      Attribute.find? file.pool AttributeName.bootstrapMethods.text file.attributes = .ok found ∧
        match found with
        | none => table = []
        | some attr => Bootstrap.tableFormat.decode attr.info = .ok table := by
  simp only [ClassFile.bootstraps, except_bind_eq_ok]
  apply exists_congr
  intro found
  apply and_congr_right
  intro _
  cases found with
  | none => exact except_pure_eq_ok.trans eq_comm
  | some attr => rfl

end StaticCompanion
