import SlateVm.Interp.Vm

/-! Maps, role tables and method definitions: what the definition and the removal of a
method, the inline caches and the optimizer store. -/
namespace SlateVm
open Vm

section Tables

/-- The fields of the entry at `index` of a role table; the entries are four words. -/
def RoleEntry.name (index : Nat) : Nat := element (4 * index)
def RoleEntry.rolePositions (index : Nat) : Nat := element (4 * index + 1)
def RoleEntry.methodDefinition (index : Nat) : Nat := element (4 * index + 2)
def RoleEntry.nextRole (index : Nat) : Nat := element (4 * index + 3)
def roleEntryWordSize : Nat := 4

def SlotEntry.name (index : Nat) : Nat := element (2 * index)
def SlotEntry.offset (index : Nat) : Nat := element (2 * index + 1)
def slotEntryWordSize : Nat := 2

def tableCapacity (h : Heap) (table entryWords : Nat) : Nat := arraySize h table / entryWords

def probes (h : Heap) (table name entryWords : Nat) : List Nat :=
  let tableSize := tableCapacity h table entryWords
  let hash := (h.mem name).hash &&& (tableSize - 1)
  List.range' hash (tableSize - hash) ++ List.range hash

def tableEntryForName (h : Heap) (table name entryWords : Nat) : Option Nat :=
  ((probes h table name entryWords).find? fun index =>
    field h table (element (entryWords * index)) == name ||
      field h table (element (entryWords * index)) == h.cached.nil).filter fun index =>
    field h table (element (entryWords * index)) == name

def tableEntryForInsertingName (h : Heap) (table name entryWords : Nat) : Option Nat :=
  (probes h table name entryWords).find? fun index =>
    field h table (element (entryWords * index)) == h.cached.nil

def tableEmptySpace (h : Heap) (table entryWords : Nat) : Nat :=
  (List.range (tableCapacity h table entryWords)).countP fun index =>
    field h table (element (entryWords * index)) == h.cached.nil

def roleChain (h : Heap) (roles : Nat) : Nat → Nat → List Nat
  | 0, _ => []
  | fuel + 1, index =>
    let next := field h roles (RoleEntry.nextRole index)
    index :: if next = h.cached.nil then [] else roleChain h roles fuel (objectToSmallint next)

def rolesNamed (h : Heap) (roles name : Nat) : List Nat :=
  match tableEntryForName h roles name roleEntryWordSize with
  | none => []
  | some index => roleChain h roles (tableCapacity h roles roleEntryWordSize) index

def halveTo (requested : Int) : Nat → Nat → Nat
  | 0, size => size
  | bits + 1, size => if requested < size then halveTo requested bits (size / 2) else size

def doubleTo (requested : Int) : Nat → Nat → Nat
  | 0, size => size
  | bits + 1, size => if (size : Int) < requested then doubleTo requested bits (2 * size) else size

def tableAccommodate (tableSize : Nat) (n : Int) : Nat :=
  let requested := tableSize + n
  let size := halveTo requested 64 tableSize
  doubleTo requested 64 (if size = 0 ∧ 1 < requested then 1 else size)

/-- A new table for `n` more entries; nothing is stored into it yet. -/
def tableGrow (table entryWords : Nat) (n : Int) : Vm Nat := do
  let oldSize ← read (tableCapacity · table entryWords)
  let emptySpace ← read (tableEmptySpace · table entryWords)
  let more : Int := oldSize / 3 - emptySpace + n
  assert (decide (0 ≤ oldSize + more))
  cloneSpecialSized specialArrayProto (tableAccommodate oldSize more * entryWords)

def entryOrCrash (entry : Option Nat) : Vm Nat :=
  match entry with
  | some index => pure index
  | none => Trace.Kept.stop .wildWrite

def roleTableInsert (roles name : Nat) : Vm Nat := do
  let chain ← read (rolesNamed · roles name)
  let role ← entryOrCrash (← read (tableEntryForInsertingName · roles name roleEntryWordSize))
  stores fun _ => [.barrier roles name]
  match chain.getLast? with
  | none => pure ()
  | some last => stores fun _ => [.small roles (RoleEntry.nextRole last) role]
  return role

def copyRole (source target : Nat) (i role : Nat) (h : Heap) : List Cmd :=
  [.bare target (RoleEntry.name role) (field h source (RoleEntry.name i)),
    .bare target (RoleEntry.rolePositions role) (field h source (RoleEntry.rolePositions i)),
    .bare target (RoleEntry.methodDefinition role) (field h source (RoleEntry.methodDefinition i)),
    .bare target (RoleEntry.nextRole role) h.cached.nil]

def roleTableGrowExcluding (roles : Nat) (n : Int) (method : Option Nat) : Vm Nat := do
  let oldSize ← read (tableCapacity · roles roleEntryWordSize)
  let newRoles ← tableGrow roles roleEntryWordSize n
  pinned newRoles do
    (List.range oldSize).forM fun i => do
      let roleName ← read (field · roles (RoleEntry.name i))
      let kept ← read fun h => roleName != h.cached.nil &&
        some (field h roles (RoleEntry.methodDefinition i)) != method
      if kept then
        pinned roleName do
          let role ← roleTableInsert newRoles roleName
          stores (copyRole roles newRoles i role)
    return newRoles

def slotTableGrowExcluding (slots : Nat) (n : Int) (excluding : Nat) : Vm Nat := do
  let oldSize ← read (tableCapacity · slots slotEntryWordSize)
  let newSlots ← tableGrow slots slotEntryWordSize n
  pinned newSlots do
    (List.range oldSize).forM fun i => do
      let slotName ← read (field · slots (SlotEntry.name i))
      if (← read fun h => slotName != h.cached.nil && slotName != excluding) then
        let slot ← entryOrCrash
          (← read (tableEntryForInsertingName · newSlots slotName slotEntryWordSize))
        stores fun h => [.bare newSlots (SlotEntry.name slot) slotName,
          .bare newSlots (SlotEntry.offset slot) (field h slots (SlotEntry.offset i))]
    return newSlots

end Tables

section Maps

def objectChangeMap (obj map : Nat) : Vm Unit := do
  let oldMap ← read fun h => (h.mem obj).map
  if ← read fun h => field h oldMap Map.representative == obj then
    stores fun h => [.bare oldMap Map.representative h.cached.nil]
  stores fun _ => [.storeMap obj map]

def objectRepresent (obj map : Nat) : Vm Unit := do
  objectChangeMap obj map
  stores fun _ => [.store map Map.representative obj]

def heapCloneMap (map : Nat) : Vm Nat := allocate (.heapClone map)

def growRoleTable (map roles : Nat) (n : Int) (method : Option Nat) : Vm Nat := do
  let newRoles ← roleTableGrowExcluding roles n method
  stores fun _ => [.store map Map.roleTable newRoles]
  return newRoles

def definedBy (h : Heap) (roles method : Nat) (entry : Nat) : Bool :=
  field h roles (RoleEntry.methodDefinition entry) == method

def objectAddRoleAt (obj selector position method : Nat) : Vm Unit := do
  let objMap ← read fun h => (h.mem obj).map
  pinned objMap do
    let map ← heapCloneMap objMap
    pinned map do
      let oldRoles ← read (field · map Map.roleTable)
      let known ← read fun h => (rolesNamed h oldRoles selector).any (definedBy h oldRoles method)
      objectRepresent obj map
      if known then
        let roles ← growRoleTable map oldRoles 0 none
        let entry ← read fun h => (rolesNamed h roles selector).find? (definedBy h roles method)
        match entry with
        | none => pure ()
        | some entry => stores fun h => [.small roles (RoleEntry.rolePositions entry)
            (smallintField h roles (RoleEntry.rolePositions entry) ||| position)]
      else
        let roles ← growRoleTable map oldRoles 1 none
        let entry ← roleTableInsert roles selector
        stores fun h => [.bare roles (RoleEntry.name entry) selector,
          .bare roles (RoleEntry.nextRole entry) h.cached.nil,
          .small roles (RoleEntry.rolePositions entry) position,
          .bare roles (RoleEntry.methodDefinition entry) method]

def objectRemoveRole (obj method : Nat) : Vm Unit := do
  let objMap ← read fun h => (h.mem obj).map
  let roles ← read (field · objMap Map.roleTable)
  pinned roles do
    let found ← read fun h => (List.range (tableCapacity h roles roleEntryWordSize)).countP
      (definedBy h roles method)
    if found ≠ 0 then
      let map ← heapCloneMap objMap
      pinned map do
        let _ ← growRoleTable map roles found (some method)
        objectRepresent obj map

def copyWord (o k value : Nat) (h : Heap) : Cmd :=
  if k ∈ oopWords (h.mem o) then .bare o k value else .number o k value

/-- The object with one slot more or less, whose words are copied behind the barrier's back;
its map becomes `map`. -/
def reshapeObject (obj map words : Nat) (word : Heap → Nat → Nat) : Vm Nat := do
  let type ← read fun h => (h.mem obj).format
  let payload ← read fun h => if type = typeObject then 0 else (h.mem obj).payloadSize
  let newObj ← allocate (.heapAllocateWithPayload words payload)
  Vm.stamp newObj type
  stores fun h => (List.range' (headerSizeWords + 1)
    (objectWordSize (h.mem newObj) - (headerSizeWords + 1))).map fun k =>
      copyWord newObj k (word h k) h
  stores fun _ => [.bareMap newObj map, .store map Map.representative newObj]
  return newObj

def relocateSlots (slots offset : Nat) (shift : Nat → Nat) (h : Heap) : List Cmd :=
  ((List.range (tableCapacity h slots slotEntryWordSize)).filter fun i =>
    field h slots (SlotEntry.name i) != h.cached.nil &&
      decide (offset ≤ smallintField h slots (SlotEntry.offset i))).map fun i =>
    .small slots (SlotEntry.offset i) (shift (smallintField h slots (SlotEntry.offset i)))

def objectAddSlotNamedAt (obj name value offset : Nat) : Vm Unit := do
  let objMap ← read fun h => (h.mem obj).map
  if (← read fun h => tableEntryForName h (field h objMap Map.slotTable) name
      slotEntryWordSize).isNone then
    let map ← heapCloneMap objMap
    pinned map do
      let nil ← read (·.cached.nil)
      let slotTable ← read (field · map Map.slotTable)
      let newTable ← pinned slotTable (slotTableGrowExcluding slotTable 1 nil)
      stores fun _ => [.bare map Map.slotTable newTable]
      pinned newTable do
        stores (relocateSlots newTable offset (· + sizeofWord))
        let entry ← entryOrCrash
          (← read (tableEntryForInsertingName · newTable name slotEntryWordSize))
        stores fun _ => [.bare newTable (SlotEntry.name entry) name,
          .small newTable (SlotEntry.offset entry) offset]
        let at' := offset / sizeofWord
        let newObj ← reshapeObject obj map ((← read fun h => (h.mem obj).objectSize) + 1)
          fun h k => if k < at' then field h obj k else if k = at' then value else field h obj (k - 1)
        stores fun h => [.store newObj at' value,
          .small map Map.slotCount (smallintField h map Map.slotCount + 1)]

def objectRemoveSlot (obj name : Nat) : Vm Unit := do
  let objMap ← read fun h => (h.mem obj).map
  let entry ← read fun h => tableEntryForName h (field h objMap Map.slotTable) name slotEntryWordSize
  match entry with
  | none => pure ()
  | some entry => do
    let offset ← read fun h => smallintField h (field h objMap Map.slotTable) (SlotEntry.offset entry)
    let map ← heapCloneMap objMap
    pinned map do
      stores fun h => [.small map Map.slotCount (smallintField h map Map.slotCount - 1)]
      let slotTable ← read (field · map Map.slotTable)
      let newTable ← pinned slotTable (slotTableGrowExcluding slotTable (-1) name)
      stores fun _ => [.bare map Map.slotTable newTable]
      stores (relocateSlots newTable offset (· - sizeofWord))
      let _ ← reshapeObject obj map ((← read fun h => (h.mem obj).objectSize) - 1)
        fun h k => if k < offset / sizeofWord then field h obj k
          else field h obj (headerSizeWords + 2 + (k - offset / sizeofWord))

end Maps

section Caches

def callerPicSize : Nat := 16
def callerPicEntrySize : Nat := 4

def methodPicSetup (caller : Nat) : Vm Unit := do
  let array ← cloneSpecialSized specialArrayProto (callerPicSize * callerPicEntrySize)
  stores fun _ => [.store caller CompiledMethod.calleeCount array]

def objectGetMap (h : Heap) (o : Nat) : Nat :=
  if oopIsSmallint o then (h.mem (getSpecial h specialSmallIntProto)).map else (h.mem o).map

/-- The callee is stored before the array of the maps is allocated, and its barrier call
comes after. -/
def methodPicInsert (calleeCount entry definition : Nat) (args : List Nat) : Vm Unit := do
  stores fun _ => [.bare calleeCount (element entry) definition,
    .small calleeCount (element (entry + 1)) args.length,
    .small calleeCount (element (entry + 3)) 1]
  let maps ← cloneSpecialSized specialArrayProto args.length
  stores fun h => [.barrier calleeCount definition, .store calleeCount (element (entry + 2)) maps] ++
    args.mapIdx fun j arg => .store maps (element j) (objectGetMap h arg)

def methodPicAddCalleeBackreference (caller callee : Nat) : Vm Unit := do
  if (← read fun h => field h callee CompiledMethod.cachedInCallers == h.cached.nil) then
    let callers ← cloneSpecialSized specialArrayProto 32
    stores fun _ => [.store callee CompiledMethod.cachedInCallers callers,
      .small callee CompiledMethod.cachedInCallersCount 0]
  let callers ← read (field · callee CompiledMethod.cachedInCallers)
  let size ← read (arraySize · callers)
  if size ≤ (← read (smallintField · callee CompiledMethod.cachedInCallersCount)) then
    let newArray ← cloneSpecialSized specialArrayProto (size * 2)
    stores fun h => copyInto newArray (element 0)
      ((List.range size).map fun j => field h callers (element j)) ++
      [.store callee CompiledMethod.cachedInCallers newArray]
  stores fun h =>
    let count := smallintField h callee CompiledMethod.cachedInCallersCount
    [.store (field h callee CompiledMethod.cachedInCallers) (element count) caller,
      .small callee CompiledMethod.cachedInCallersCount (count + 1)]

def compiledCallee (h : Heap) (definition : Nat) : Option Nat :=
  let method := field h definition MethodDefinition.method
  let window := fun o => field h (field h (h.mem o).map Map.delegates) (element 0)
  let callee := if window method = getSpecial h specialClosureWindow
    then field h method Closure.method else method
  if window callee = getSpecial h specialPrimitiveMethodWindow then none else some callee

def methodPicAddCallee (caller entry definition : Nat) (args : List Nat) : Vm Unit := do
  let calleeCount ← read (field · caller CompiledMethod.calleeCount)
  pinned calleeCount (methodPicInsert calleeCount entry definition args)
  match ← read (compiledCallee · definition) with
  | none => pure ()
  | some callee => methodPicAddCalleeBackreference caller callee

def methodPicFlushCallerPics (callee : Nat) : Vm Unit := do
  if oopIsSmallint (← read (field · callee CompiledMethod.cachedInCallersCount)) then
    let count ← read (smallintField · callee CompiledMethod.cachedInCallersCount)
    (List.range count).forM fun j => do
      methodPicSetup (← read fun h =>
        field h (field h callee CompiledMethod.cachedInCallers) (element j))

def methodUnoptimize (method : Nat) : Vm Unit :=
  stores fun h =>
    let oldCode := field h method CompiledMethod.oldCode
    [.barrier oldCode oldCode,
      .bare method CompiledMethod.code oldCode,
      .bare method CompiledMethod.isInlined h.cached.falseObject,
      .bare method CompiledMethod.calleeCount h.cached.nil,
      .small method CompiledMethod.callCount 0]

def methodGiveUpOptimizing (method : Nat) : Vm Unit :=
  stores fun h =>
    [.bare method CompiledMethod.isInlined h.cached.trueObject,
      .bare method CompiledMethod.oldCode (field h method CompiledMethod.code),
      .bare method CompiledMethod.nextInlineAtCallCount h.cached.nil]

/-- What `optimizer_inline_callees` leaves: `code` is the list it has built. -/
def methodOptimize (method registers : Nat) (code : Heap → List Nat) : Vm Unit := do
  if (← read fun h => field h method CompiledMethod.oldCode == h.cached.nil) then
    stores fun h => [.barrier (field h method CompiledMethod.code) (field h method CompiledMethod.code),
      .bare method CompiledMethod.oldCode (field h method CompiledMethod.code)]
  stores fun h => [.barrier (field h method CompiledMethod.oldCode)
      (field h method CompiledMethod.code),
    .bare method CompiledMethod.isInlined h.cached.trueObject]
  let words ← read code
  let newCode ← cloneSpecialSized specialArrayProto words.length
  stores fun _ => copyInto newCode (element 0) words ++
    [.store method CompiledMethod.code newCode, .small method CompiledMethod.registerCount registers]

def dispatchMarks (marks : List (Nat × Nat × Nat)) : Vm Unit :=
  stores fun _ => marks.map fun (o, k, n) => .number o k n

end Caches

section Define

/-- `method_define` from the new definition on, for the definition that dispatch found. -/
def methodDefine (method selector : Nat) (args : List Nat) (oldDef : Option Nat)
    (flushed : List Nat) (slotAccessor : Heap → Nat) : Vm Unit := do
  let proto ← read (getSpecial · specialMethodDefProto)
  let definition ← allocate (.heapClone proto)
  pinned definition do
    let noRole ← read (getSpecial · specialNoRole)
    let positions := args.zipIdx.foldl (fun positions (arg, j) =>
      if oopIsSmallint arg || arg == noRole then positions else positions ||| 1 <<< j) 0
    stores fun h => [.small selector Symbol.cacheMask
      (smallintField h selector Symbol.cacheMask ||| positions)]
    flushed.forM methodPicFlushCallerPics
    stores fun _ => [.store definition MethodDefinition.method method,
      .number definition MethodDefinition.dispatchPositions positions]
    args.zipIdx.forM fun (arg, j) => do
      if !oopIsSmallint arg && arg != noRole then
        match oldDef with
        | none => pure ()
        | some oldDef => objectRemoveRole arg oldDef
        objectAddRoleAt arg selector (1 <<< j) definition
    -- the accessor's slot is stored without a barrier call
    stores fun h => [.bare definition MethodDefinition.slotAccessor (slotAccessor h)]

/-- The copy that `asMethod:on:` and `asAccessor:` define: of a closure and its method, or of
a method. -/
def cloneMethod (method selector : Nat) : Vm Nat := do
  let closure ← allocate (.heapClone method)
  pinned closure do
    let window ← read fun h => field h (field h (h.mem method).map Map.delegates) (element 0)
    if window = (← read (getSpecial · specialClosureWindow)) then
      let inner ← read (field · closure Closure.method)
      let compiled ← allocate (.heapClone inner)
      stores fun _ => [.store closure Closure.method compiled,
        .bare compiled CompiledMethod.method compiled,
        .bare compiled CompiledMethod.selector selector]
    else
      stores fun _ => [.bare closure CompiledMethod.method closure,
        .bare closure CompiledMethod.selector selector]
    return closure

end Define

end SlateVm
