import RegionHeap.Json.Error
import RegionHeap.Json.Stats
import RegionHeap.Proofs.Spelling

/-!
# What is written in JSON is read back

Statistics, errors and defects are written as JSON texts. Between a text and what is read out of it
stands a value: the text spells the value, whatever it is part of, and the reader finds the fields
of the value by their names. So every type has two lemmas, one for each half of the way, and the
two meet in the value.

* `spells_fields`, `fields?_named`: records, written in order and found by names.
* `Stats.value`, `Defect.value`, `HeapError.value`: what the texts stand for.
* `Faithful`: a text is read back, and no two things have the same text.
* `json_faithful`: so it is for all three types, with any 64-bit numbers.
-/

namespace RegionHeap

namespace Json

section Record

variable {members : List (String × Value)} {name : String} {v : Value}

-- ---------------------------------------------------------------------------
-- Records as they are written
-- ---------------------------------------------------------------------------

/-- **The fields of a record** spell it, if each of them is spelled and the names are plain. -/
theorem spells_fields {texts : List (List Char)} (hPlain : ∀ member ∈ members, IsPlain member.1)
    (h : List.Forall₂ Spells texts (members.map Prod.snd)) :
    Spells (recordText ((members.map Prod.fst).zip texts)) (.object (named members)) := by
  have hFields : List.Forall₂ SpellsMember ((members.map Prod.fst).zip texts) members := by
    induction members generalizing texts with
    | nil => exact .nil
    | cons member members ih =>
      obtain ⟨text, texts, hText, hTexts, rfl⟩ := List.forall₂_cons_right_iff.mp h
      have hRest := ih (fun other hOther => hPlain other (List.mem_cons_of_mem _ hOther)) hTexts
      exact .cons ⟨rfl, hPlain member List.mem_cons_self, hText⟩ hRest
  exact spells_record hFields

/-- A text for its content spells a variant. -/
theorem spells_variant {content : List Char} (hName : IsPlain name) (h : Spells content v) :
    Spells (variantText name content) (.object (named [(name, v)])) :=
  spells_record (.cons ⟨rfl, hName, h⟩ .nil)

-- ---------------------------------------------------------------------------
-- Records as they are read
-- ---------------------------------------------------------------------------

/-- A list is read if each of its members is read. -/
theorem mapM_map_eq_some {α β γ : Type} {write : α → β} {read? : β → Option γ} {found : α → γ}
    {xs : List α} (h : ∀ x ∈ xs, read? (write x) = some (found x)) :
    (xs.map write).mapM read? = some (xs.map found) := by
  induction xs with
  | nil => rfl
  | cons x xs ih =>
    have hRest := ih fun other hOther => h other (List.mem_cons_of_mem _ hOther)
    rw [List.map_cons, List.mapM_cons, h x List.mem_cons_self, hRest]
    rfl

namespace Value

/-- A member is found by its name, if no other has that name. -/
theorem member?_of_mem (hNodup : (members.map Prod.fst).Nodup) (h : (name, v) ∈ members) :
    member? members name = some v := by
  have hFilter : (members.filter fun member => member.1 == name) = [(name, v)] := by
    induction members with
    | nil => exact absurd h List.not_mem_nil
    | cons member members ih =>
      rw [List.map_cons, List.nodup_cons] at hNodup
      rcases List.mem_cons.mp h with rfl | hMem
      · have hNone : (members.filter fun member => member.1 == name) = [] := by
          rw [List.filter_eq_nil_iff]
          intro other hOther hSame
          exact hNodup.1 (List.mem_map.mpr ⟨other, hOther, beq_iff_eq.mp hSame⟩)
        rw [List.filter_cons_of_pos (by simp), hNone]
      · have hOther : ¬(member.1 == name) = true := by
          intro hSame
          exact hNodup.1 (List.mem_map.mpr ⟨_, hMem, (beq_iff_eq.mp hSame).symm⟩)
        rw [List.filter_cons, if_neg hOther]
        exact ih hNodup.2 hMem
  rw [member?, hFilter]

/-- **The fields of a record** are found by their names, if these are distinct. -/
theorem fields?_named (hNodup : (members.map Prod.fst).Nodup) :
    fields? (members.map Prod.fst) (.object (named members)) = some (members.map Prod.snd) := by
  have hKeys : ((named members).mapM fun member => member.1.map fun name => (name, member.2)) =
      some (members.map id) :=
    mapM_map_eq_some fun _ _ => rfl
  have hFields : (members.map Prod.fst).mapM (member? members) = some (members.map Prod.snd) :=
    mapM_map_eq_some fun _ hMember => member?_of_mem hNodup hMember
  show (((named members).mapM fun member => member.1.map fun name => (name, member.2)) >>=
    fun read => (members.map Prod.fst).mapM (member? read)) = _
  rw [hKeys, List.map_id]
  exact hFields

/-- A number that is a word is read. -/
theorem natural?_of_lt {n : Nat} (h : n < Word.limit) : natural? (.number (some n)) = some n :=
  if_pos h

/-- Words are read one by one. -/
theorem mapM_natural? {ns : List Nat} (h : ∀ n ∈ ns, n < Word.limit) :
    (ns.map fun n => number (some n)).mapM natural? = some ns := by
  have hWords : (ns.map fun n => number (some n)).mapM natural? = some (ns.map id) :=
    mapM_map_eq_some fun n hn => natural?_of_lt (h n hn)
  rw [hWords, List.map_id]

end Value

end Record

end Json

open Json (IsPlain Spells named)

-- ---------------------------------------------------------------------------
-- Statistics
-- ---------------------------------------------------------------------------

namespace Stats

/-- The numbers of statistics are words. -/
def InWords (stats : Stats) : Prop := ∀ n ∈ stats.fieldValues, n < Word.limit

instance (stats : Stats) : Decidable stats.InWords := by
  unfold InWords
  infer_instance

/-- The names of the fields and their values. -/
def fields (stats : Stats) : List (String × Json.Value) :=
  fieldNames.zip (stats.fieldValues.map fun n => .number (some n))

/-- The value that statistics are written as. -/
def value (stats : Stats) : Json.Value := .object (named stats.fields)

variable {stats : Stats}

theorem map_fst_fields (stats : Stats) : stats.fields.map Prod.fst = fieldNames :=
  List.map_fst_zip (Nat.le_refl _)

theorem map_snd_fields (stats : Stats) :
    stats.fields.map Prod.snd = stats.fieldValues.map fun n => .number (some n) :=
  List.map_snd_zip (Nat.le_refl _)

theorem spells_toJson (stats : Stats) : Spells stats.toJson stats.value := by
  have hPlain : ∀ name ∈ fieldNames, IsPlain name := by decide +kernel
  have hTexts : List.Forall₂ Spells (stats.fieldValues.map Json.naturalText)
      (stats.fields.map Prod.snd) := by
    rw [map_snd_fields, List.forall₂_map_left_iff, List.forall₂_map_right_iff, List.forall₂_same]
    exact fun n _ => Json.spells_natural n
  have hRecord := Json.spells_fields
    (fun member (hMember : member ∈ stats.fields) => hPlain _ (List.of_mem_zip hMember).1) hTexts
  rwa [map_fst_fields] at hRecord

/-- **Statistics** are read back. -/
theorem ofJson?_toJson (h : stats.InWords) : ofJson? stats.toJson = some stats := by
  have hFields : stats.value.fields? fieldNames =
      some (stats.fieldValues.map fun n => .number (some n)) := by
    rw [← map_fst_fields stats, ← map_snd_fields stats]
    exact Json.Value.fields?_named (by rw [map_fst_fields]; decide)
  rw [ofJson?, (spells_toJson stats).parse?, Option.bind_eq_bind, Option.bind_some, hFields,
    Option.bind_eq_bind, Option.bind_some, Json.Value.mapM_natural? h]
  rfl

end Stats

-- ---------------------------------------------------------------------------
-- Defects
-- ---------------------------------------------------------------------------

namespace Defect

/-- The value that a defect is written as. -/
def value (defect : Defect) : Json.Value := .string (some defect.name)

theorem spells_toJson (defect : Defect) : Spells defect.toJson defect.value :=
  Json.spells_name (by cases defect <;> decide +kernel)

theorem ofValue?_value (defect : Defect) : ofValue? defect.value = some defect := by
  cases defect <;> decide

/-- **A defect** is read back. -/
theorem ofJson?_toJson (defect : Defect) : ofJson? defect.toJson = some defect := by
  rw [ofJson?, (spells_toJson defect).parse?]
  exact ofValue?_value defect

end Defect

-- ---------------------------------------------------------------------------
-- Errors
-- ---------------------------------------------------------------------------

namespace HeapError

/-- The numbers in an error. -/
def naturals : HeapError → List Nat
  | invalidRegion start stop => [start, stop]
  | regionTooSmall size required => [size, required]
  | alreadyInitialized | notInitialized => []
  | outOfMemory requested => [requested]
  | corruption address _ => [address]

/-- The numbers in an error are words. -/
def InWords (e : HeapError) : Prop := ∀ n ∈ e.naturals, n < Word.limit

instance (e : HeapError) : Decidable e.InWords := by
  unfold InWords
  infer_instance

/-- The names of the fields and their values. -/
def fields : HeapError → List (String × Json.Value)
  | invalidRegion start stop => [("start", .number (some start)), ("end", .number (some stop))]
  | regionTooSmall size required =>
    [("size", .number (some size)), ("required", .number (some required))]
  | alreadyInitialized | notInitialized => []
  | outOfMemory requested => [("requested", .number (some requested))]
  | corruption address defect => [("address", .number (some address)), ("kind", defect.value)]

/-- The texts of the values. -/
def fieldTexts : HeapError → List (List Char)
  | invalidRegion start stop => [Json.naturalText start, Json.naturalText stop]
  | regionTooSmall size required => [Json.naturalText size, Json.naturalText required]
  | alreadyInitialized | notInitialized => []
  | outOfMemory requested => [Json.naturalText requested]
  | corruption address defect => [Json.naturalText address, defect.toJson]

/-- The content of the variant that an error is written as. -/
def content? (e : HeapError) : Option Json.Value :=
  if e.fields.isEmpty then none else some (.object (named e.fields))

/-- The value that an error is written as. -/
def value (e : HeapError) : Json.Value :=
  match e.content? with
  | none => .string (some e.kindName)
  | some content => .object (named [(e.kindName, content)])

variable {e : HeapError}

theorem isPlain_kindName (e : HeapError) : IsPlain e.kindName := by
  cases e <;> rw [kindName] <;> decide +kernel

theorem isPlain_of_mem_fields {member : String × Json.Value} (h : member ∈ e.fields) :
    IsPlain member.1 := by
  have hPlain : ∀ name ∈ ["start", "end", "size", "required", "requested", "address", "kind"],
      IsPlain name := by
    decide +kernel
  refine hPlain member.1 ?_
  cases e <;> simp only [fields, List.mem_cons, List.not_mem_nil, or_false] at h <;>
    rcases h with rfl | rfl <;> simp

theorem nodup_fields (e : HeapError) : (e.fields.map Prod.fst).Nodup := by
  cases e <;> simp [fields]

theorem toJson_eq (e : HeapError) : e.toJson =
    if e.fields.isEmpty then Json.nameText e.kindName
    else Json.variantText e.kindName
      (Json.recordText ((e.fields.map Prod.fst).zip e.fieldTexts)) := by
  cases e <;> rfl

theorem spells_fieldTexts (e : HeapError) :
    List.Forall₂ Spells e.fieldTexts (e.fields.map Prod.snd) := by
  cases e with
  | invalidRegion start stop =>
    exact .cons (Json.spells_natural start) (.cons (Json.spells_natural stop) .nil)
  | regionTooSmall size required =>
    exact .cons (Json.spells_natural size) (.cons (Json.spells_natural required) .nil)
  | alreadyInitialized => exact .nil
  | notInitialized => exact .nil
  | outOfMemory requested => exact .cons (Json.spells_natural requested) .nil
  | corruption address defect =>
    exact .cons (Json.spells_natural address) (.cons defect.spells_toJson .nil)

theorem spells_toJson (e : HeapError) : Spells e.toJson e.value := by
  rw [toJson_eq, value, content?]
  by_cases hUnit : e.fields.isEmpty = true
  · rw [if_pos hUnit, if_pos hUnit]
    exact Json.spells_name (isPlain_kindName e)
  · rw [if_neg hUnit, if_neg hUnit]
    exact Json.spells_variant (isPlain_kindName e)
      (Json.spells_fields (fun _ hMember => isPlain_of_mem_fields hMember) (spells_fieldTexts e))

theorem variant?_value (e : HeapError) : e.value.variant? = some (e.kindName, e.content?) := by
  cases e <;> rfl

/-- The fields of an error are found by their names. -/
theorem fields?_fields (e : HeapError) (names : List String)
    (h : e.fields.map Prod.fst = names) :
    Json.Value.fields? names (.object (named e.fields)) = some (e.fields.map Prod.snd) := by
  subst h
  exact Json.Value.fields?_named (nodup_fields e)

/-- Two numbers are found by their names. -/
theorem naturals?_fields (e : HeapError) {first second : String} {a b : Nat}
    (h : e.fields = [(first, .number (some a)), (second, .number (some b))])
    (ha : a < Word.limit) (hb : b < Word.limit) :
    naturals? first second (.object (named e.fields)) = some (a, b) := by
  have hFields := fields?_fields e [first, second] (by rw [h]; rfl)
  rw [naturals?, hFields, h, Option.bind_eq_bind, Option.bind_some]
  show (do return (← Json.Value.natural? _, ← Json.Value.natural? _) : Option (Nat × Nat)) = _
  rw [Json.Value.natural?_of_lt ha, Json.Value.natural?_of_lt hb]
  rfl

theorem content?_of_fields (h : e.fields ≠ []) : e.content? = some (.object (named e.fields)) :=
  if_neg (by simpa using h)

/-- The content of an error is read as the error of its kind. -/
theorem ofContent?_kindName (h : e.InWords) : ofContent? e.kindName e.content? = some e := by
  cases e with
  | invalidRegion start stop =>
    have hRead := naturals?_fields (.invalidRegion start stop) rfl (h start (by simp [naturals]))
      (h stop (by simp [naturals]))
    rw [content?_of_fields (by simp [fields]), kindName, ofContent?, Option.bind_eq_bind,
      Option.bind_some, hRead]
    rfl
  | regionTooSmall size required =>
    have hRead := naturals?_fields (.regionTooSmall size required) rfl (h size (by simp [naturals]))
      (h required (by simp [naturals]))
    rw [content?_of_fields (by simp [fields]), kindName, ofContent?, Option.bind_eq_bind,
      Option.bind_some, hRead]
    rfl
  | alreadyInitialized => rfl
  | notInitialized => rfl
  | outOfMemory requested =>
    have hRequested := Json.Value.natural?_of_lt (h requested (by simp [naturals]))
    rw [content?_of_fields (by simp [fields]), kindName, ofContent?, Option.bind_eq_bind,
      Option.bind_some, fields?_fields (.outOfMemory requested) ["requested"] rfl]
    show (Json.Value.natural? _).bind _ = _
    rw [hRequested]
    rfl
  | corruption address defect =>
    have hAddress := Json.Value.natural?_of_lt (h address (by simp [naturals]))
    rw [content?_of_fields (by simp [fields]), kindName, ofContent?, Option.bind_eq_bind,
      Option.bind_some, fields?_fields (.corruption address defect) ["address", "kind"] rfl]
    show (Json.Value.natural? _).bind _ = _
    rw [hAddress]
    show (Defect.ofValue? defect.value).bind _ = _
    rw [Defect.ofValue?_value]
    rfl

/-- **An error** is read back. -/
theorem ofJson?_toJson (h : e.InWords) : ofJson? e.toJson = some e := by
  rw [ofJson?, (spells_toJson e).parse?, Option.bind_eq_bind, Option.bind_some, variant?_value]
  exact ofContent?_kindName h

end HeapError

-- ---------------------------------------------------------------------------
-- Writers and readers
-- ---------------------------------------------------------------------------

/-- A writer and a reader of things that fit: what is written is read back, and two things that are
written alike are the same. -/
structure Faithful {α : Type} (write : α → List Char) (read? : List Char → Option α)
    (Fits : α → Prop) : Prop where
  reads : ∀ a, Fits a → read? (write a) = some a
  distinct : ∀ a b, Fits a → Fits b → write a = write b → a = b

/-- Two things that are written alike are read alike. -/
theorem Faithful.of_reads {α : Type} {write : α → List Char} {read? : List Char → Option α}
    {Fits : α → Prop} (h : ∀ a, Fits a → read? (write a) = some a) :
    Faithful write read? Fits := by
  refine ⟨h, fun a b ha hb hSame => ?_⟩
  have hRead : read? (write a) = some b := hSame ▸ h b hb
  exact Option.some.inj ((h a ha).symm.trans hRead)

/-- **JSON keeps everything.** The text of statistics with any ten 64-bit numbers is read as the
same statistics, the text of an error of any kind with any 64-bit numbers and any defect as the same
error, and the name of a defect as the same defect. So within each type no two values have the same
text. -/
theorem json_faithful :
    Faithful Stats.toJson Stats.ofJson? Stats.InWords ∧
      Faithful HeapError.toJson HeapError.ofJson? HeapError.InWords ∧
        Faithful Defect.toJson Defect.ofJson? fun _ => True :=
  ⟨.of_reads fun _ => Stats.ofJson?_toJson, .of_reads fun _ => HeapError.ofJson?_toJson,
    .of_reads fun defect _ => defect.ofJson?_toJson⟩

/-- The largest words are read back, in statistics and next to a defect in an error, and numbers
that have the same double-precision value are told apart. -/
theorem json_faithful_largest :
    (HeapError.corruption 18446744073709551615 .doubleFree).toJson =
        ("\x7b\"Corruption\":\x7b\"address\":18446744073709551615," ++
          "\"kind\":\"DoubleFree\"\x7d\x7d").toList ∧
      HeapError.ofJson? (HeapError.corruption 18446744073709551615 .doubleFree).toJson =
        some (.corruption 18446744073709551615 .doubleFree) ∧
      (let largest := Word.limit - 1
       let stats : Stats := ⟨largest, largest, largest, largest, largest, largest, largest, largest,
        largest, largest⟩
       Stats.ofJson? stats.toJson = some stats) ∧
      (HeapError.outOfMemory 9007199254740992).toJson ≠
        (HeapError.outOfMemory 9007199254740993).toJson ∧
      Defect.ofJson? Defect.counterMismatch.toJson = some .counterMismatch := by
  obtain ⟨hStats, hErrors, hDefects⟩ := json_faithful
  refine ⟨by decide +kernel, hErrors.reads _ (by decide), hStats.reads _ (by decide), ?_,
    hDefects.reads _ trivial⟩
  intro hSame
  exact absurd (hErrors.distinct _ _ (by decide) (by decide) hSame) (by decide)

end RegionHeap
