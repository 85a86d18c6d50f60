import SpectraLang.Runtime.StringAccess

/-! # Maps with integer keys

A map call asks at that moment whether its key is the address of a tracked packed string. If it is,
the text is the key, otherwise the integer itself; strings allocated or freed between two calls
change the answer.
-/

namespace SpectraLang

/-- `try_read_packed_string`: a tracked buffer with zeros only from its terminator on. -/
def StringMemory.tryReadPackedString (memory : StringMemory) (value : I64) : Option String :=
  if value = 0 then none
  else (memory.size value.toNat).bind fun limit =>
    let bytes := (List.range limit).map fun offset => memory.byte (value.toNat + offset)
    let length := memory.scan value.toNat limit
    if limit ≤ length then none
    else if (bytes.drop (length + 1)).any (· != 0) then none
    else String.fromUTF8? ⟨(bytes.take length).toArray⟩

namespace IntegerMaps

/-- Key identity; the raw address beside a text serves iteration only. -/
inductive CollectionKey where
  | scalar (value : I64)
  | string (value : String)
  deriving DecidableEq, Hashable

/-- `collection_key`. -/
def collectionKey (memory : StringMemory) (value : I64) : CollectionKey :=
  match memory.tryReadPackedString value with
  | some text => .string text
  | none => .scalar value

abbrev StdMap := Std.HashMap CollectionKey I64

inductive MapOperation where
  | set (key value : I64)
  | get (key : I64)
  | contains (key : I64)
  | remove (key : I64)
  | len

inductive MapResult where
  | value (value : I64)
  | option (value : Option I64)

/-- `std_map_set`, `std_map_get_option`, `std_map_contains`, `std_map_remove_option` and
`std_map_len` on a live map, with the present memory. -/
def stdMap (memory : StringMemory) (data : StdMap) : MapOperation → MapResult × StdMap
  | .set key value => (.value 0, data.insert (collectionKey memory key) value)
  | .get key => (.option data[collectionKey memory key]?, data)
  | .contains key => (.value (if data.contains (collectionKey memory key) then 1 else 0), data)
  | .remove key => (.option data[collectionKey memory key]?, data.erase (collectionKey memory key))
  | .len => (.value (.ofNat 64 data.size), data)

/-- What a finite map from integers answers. -/
def finiteMap (entries : Std.HashMap I64 I64) : MapOperation → MapResult × Std.HashMap I64 I64
  | .set key value => (.value 0, entries.insert key value)
  | .get key => (.option entries[key]?, entries)
  | .contains key => (.value (if entries.contains key then 1 else 0), entries)
  | .remove key => (.option entries[key]?, entries.erase key)
  | .len => (.value (.ofNat 64 entries.size), entries)

def MapOperation.Uses (keys : Set I64) : MapOperation → Prop
  | .set key _ | .get key | .contains key | .remove key => key ∈ keys
  | .len => True

/-- Whatever calls are made with these keys, one in each memory, each returns what the finite map
returns. -/
def Agrees (keys : Set I64) : List StringMemory → StdMap → Std.HashMap I64 I64 → Prop
  | [], _, _ => True
  | memory :: later, data, entries => ∀ operation : MapOperation, operation.Uses keys →
      (stdMap memory data operation).1 = (finiteMap entries operation).1 ∧
      Agrees keys later (stdMap memory data operation).2 (finiteMap entries operation).2

/-- Keys mean the same collection key, one now and one later, exactly when they are the same
integer. -/
def KeepsIdentity (keys : Set I64) (now later : StringMemory) : Prop :=
  ∀ key ∈ keys, ∀ other ∈ keys, collectionKey now key = collectionKey later other ↔ key = other

/-- The data answers as the entries at every key, in each of the memories. -/
structure Simulates (keys : Set I64) (memories : List StringMemory) (data : StdMap)
    (entries : Std.HashMap I64 I64) : Prop where
  lookup : ∀ memory ∈ memories, ∀ key ∈ keys, data[collectionKey memory key]? = entries[key]?
  size : data.size = entries.size

variable {keys : Set I64} {memory : StringMemory} {later : List StringMemory} {data : StdMap}
  {entries : Std.HashMap I64 I64}

namespace Simulates

theorem mem_iff (simulates : Simulates keys (memory :: later) data entries) {key : I64}
    (used : key ∈ keys) : collectionKey memory key ∈ data ↔ key ∈ entries := by
  rw [Std.HashMap.mem_iff_isSome_getElem?, Std.HashMap.mem_iff_isSome_getElem?,
    simulates.lookup memory (by simp) key used]

/-- One call answers alike and leaves data that simulates in the memories to come. -/
theorem call (simulates : Simulates keys (memory :: later) data entries)
    (keeps : ∀ next ∈ later, KeepsIdentity keys memory next) {operation : MapOperation}
      (uses : operation.Uses keys) :
    (stdMap memory data operation).1 = (finiteMap entries operation).1 ∧
    Simulates keys later (stdMap memory data operation).2 (finiteMap entries operation).2 := by
  have rest : Simulates keys later data entries :=
    ⟨fun next member => simulates.lookup next (.tail _ member), simulates.size⟩
  have now := simulates.lookup memory (by simp)
  cases operation with
  | set key value =>
    refine ⟨rfl, fun next member other used => ?_, ?_⟩
    · simp only [stdMap, finiteMap, Std.HashMap.getElem?_insert, beq_iff_eq,
        keeps next member key uses other used, rest.lookup next member other used]
    · simp only [stdMap, finiteMap, Std.HashMap.size_insert, simulates.mem_iff uses, simulates.size]
  | get key => exact ⟨congrArg MapResult.option (now key uses), rest⟩
  | contains key =>
    refine ⟨?_, rest⟩
    simp only [stdMap, finiteMap, Std.HashMap.contains_eq_isSome_getElem?, now key uses]
  | remove key =>
    refine ⟨congrArg MapResult.option (now key uses), fun next member other used => ?_, ?_⟩
    · simp only [stdMap, finiteMap, Std.HashMap.getElem?_erase, beq_iff_eq,
        keeps next member key uses other used, rest.lookup next member other used]
    · simp only [stdMap, finiteMap, Std.HashMap.size_erase, simulates.mem_iff uses, simulates.size]
  | len => exact ⟨congrArg (fun size => MapResult.value (.ofNat 64 size)) simulates.size, rest⟩

theorem agrees {memories : List StringMemory} (keeps : memories.Pairwise (KeepsIdentity keys))
    (simulates : Simulates keys memories data entries) : Agrees keys memories data entries := by
  induction memories generalizing data entries with
  | nil => trivial
  | cons memory later ih =>
    intro operation uses
    obtain ⟨now, rest⟩ := List.pairwise_cons.mp keeps
    obtain ⟨same, next⟩ := simulates.call now uses
    exact ⟨same, ih rest next⟩

end Simulates

/-- Calls of `map_len` pass the time until a lookup is made. -/
theorem Agrees.lookup (agrees : Agrees keys later data entries) (member : memory ∈ later)
    {key : I64} (used : key ∈ keys) : data[collectionKey memory key]? = entries[key]? := by
  induction member with
  | head => exact MapResult.option.inj (agrees (.get key) used).1
  | tail _ _ ih => exact ih (agrees .len trivial).2

end IntegerMaps

end SpectraLang
