import CodeGraph.Lib.Runs
import CodeGraph.Text

/-!
# The merges into a host's settings

The four edits of a host's JSON settings: our server entry put in and taken out,
our `PreToolUse` hook put in and taken out. `outside` is what the settings hold
apart from them. A run of edits keeps it, takes out what it should and repeats
nothing, where every `merge_hook_uninstall` meets hook blocks that are wholly ours
or wholly foreign and none that is empty (`unclobbered_of_unmixed`).
-/

namespace CodeGraph

open List

namespace HostInstall

open Runs (run Along)

/-! ## Settings -/

/-- A JSON value as it is held: an object by its fields in the order of the keys,
a number by its digits. -/
inductive Value where
  | null
  | bool (b : Bool)
  | number (digits : Text)
  | string (s : Text)
  | array (items : List Value)
  | object (fields : List (Text × Value))

abbrev Fields := List (Text × Value)

namespace Value

mutual

/-- Equality of values. -/
def same : Value → Value → Bool
  | .null, .null => true
  | .bool a, .bool b => a = b
  | .number a, .number b | .string a, .string b => a = b
  | .array vs, .array ws => sameItems vs ws
  | .object vs, .object ws => sameFields vs ws
  | _, _ => false

def sameItems : List Value → List Value → Bool
  | [], [] => true
  | v :: vs, w :: ws => same v w && sameItems vs ws
  | _, _ => false

def sameFields : List (Text × Value) → List (Text × Value) → Bool
  | [], [] => true
  | (j, v) :: vs, (k, w) :: ws => j = k && same v w && sameFields vs ws
  | _, _ => false

end

mutual

theorem same_refl : ∀ v : Value, same v v = true
  | .null => rfl
  | .bool _ | .number _ | .string _ => decide_eq_true rfl
  | .array vs => sameItems_refl vs
  | .object vs => sameFields_refl vs

theorem sameItems_refl : ∀ vs, sameItems vs vs = true
  | [] => rfl
  | v :: vs => by rw [sameItems, same_refl v, sameItems_refl vs, Bool.and_self]

theorem sameFields_refl : ∀ vs, sameFields vs vs = true
  | [] => rfl
  | (k, v) :: vs => by
      rw [sameFields, same_refl v, sameFields_refl vs, decide_eq_true rfl, Bool.and_self, Bool.and_self]

end

def asObject : Value → Option Fields
  | .object fields => some fields
  | _ => none

def asArray : Value → Option (List Value)
  | .array items => some items
  | _ => none

def get (v : Value) (key : Text) : Option Value := v.asObject.bind (List.lookup key)

end Value

/-- Puts a field in, in place of the one under its key. -/
def insert (key : Text) (v : Value) : Fields → Fields
  | [] => [(key, v)]
  | (k, w) :: fields =>
      if key = k then (key, v) :: fields
      else if key < k then (key, v) :: (k, w) :: fields
      else (k, w) :: insert key v fields

def remove (key : Text) (fields : Fields) : Fields := fields.filter (·.1 ≠ key)

theorem lookup_insert (key k : Text) (v : Value) : ∀ fields : Fields,
    (insert key v fields).lookup k = if k = key then some v else fields.lookup k
  | [] => by
      rw [insert, lookup_cons]
      split <;> simp_all
  | (k', w) :: fields => by
      rw [insert]
      split
      · next heq =>
        subst heq
        simp only [lookup_cons]
        split <;> simp_all
      · split
        · simp only [lookup_cons]
          split <;> simp_all
        · rw [lookup_cons, lookup_cons, lookup_insert key k v fields]
          split <;> simp_all [Ne.symm]

theorem remove_insert (key : Text) (v : Value) : ∀ fields : Fields,
    remove key (insert key v fields) = remove key fields
  | [] => by simp [insert, remove]
  | (k', w) :: fields => by
      have ih := remove_insert key v fields
      rw [insert]
      split
      · next heq =>
        subst heq
        simp [remove]
      · split
        · simp [remove]
        · simp only [remove, filter_cons] at ih ⊢
          rw [ih]

/-! ## The merges -/

/-- Our server entry. -/
structure ServerSpec where
  name : Text
  command : Text
  args : List Text

/-- The JSON dialects. -/
inductive Format where
  | mcpServers
  | serversVscode
  | contextServersZed
  deriving DecidableEq

def Format.container : Format → Text
  | .mcpServers => "mcpServers".toList
  | .serversVscode => "servers".toList
  | .contextServersZed => "context_servers".toList

/-- A settings file by what is read from it; a value written is read back. -/
inductive File where
  | absent
  | blank
  | invalid
  | json (v : Value)

/-- `refuse` gives the reason and, for our server, the entry to add by hand. -/
inductive MergeOutcome where
  | write (v : Value)
  | noChange
  | refuse (why : Text) (snippet : Option Value)

/-- The fields to edit: those of a JSON object, none yet in a file with no text. -/
def File.fields : File → Option Fields
  | .absent | .blank => some []
  | .invalid => none
  | .json v => v.asObject

def desiredJsonEntry (spec : ServerSpec) (format : Format) : Value :=
  let obj := if format = .serversVscode then
      insert "type".toList (.string "stdio".toList) []
    else []
  let obj := insert "command".toList (.string spec.command) obj
  .object (insert "args".toList (.array (spec.args.map .string)) obj)

def refuseJson (spec : ServerSpec) (format : Format) (why : Text) : MergeOutcome :=
  .refuse ("not editing in place (".toList ++ why ++
      "). Add this to the config by hand (merge into any existing '".toList ++ format.container ++
      "'):\n".toList)
    (some (.object [(format.container, .object [(spec.name, desiredJsonEntry spec format)])]))

def mergeInstall (existing : File) (spec : ServerSpec) (format : Format) : MergeOutcome :=
  match existing.fields with
  | none =>
      refuseJson spec format <| match existing with
        | .json _ => "the config root is not a JSON object".toList
        | _ => "the file is not valid strict JSON (e.g. Zed JSONC with comments/trailing commas)".toList
  | some obj =>
      match ((obj.lookup format.container).getD (.object [])).asObject with
      | none => refuseJson spec format "the servers container is not an object".toList
      | some servers =>
          let desired := desiredJsonEntry spec format
          if (servers.lookup spec.name).any (·.same desired) then .noChange
          else .write (.object (insert format.container
            (.object (insert spec.name desired servers)) obj))

/-- The fields to take something out of: an empty text is no object, and on an
absent file the callers do nothing. -/
def File.written : File → Option Fields
  | .absent => some []
  | .json v => v.asObject
  | _ => none

def mergeUninstall (existing : File) (name : Text) (format : Format) : MergeOutcome :=
  match existing.written with
  | none =>
      .refuse ("cannot parse the config to uninstall from; remove the '".toList ++ name ++
        "' entry under '".toList ++ format.container ++ "' by hand".toList) none
  | some obj =>
      match (obj.lookup format.container).bind Value.asObject with
      | none => .noChange
      | some servers =>
          if (servers.lookup name).isSome then
            .write (.object (insert format.container (.object (remove name servers)) obj))
          else .noChange

def hookMatcher : Text := "Grep|Glob".toList

section Hooks

variable (cc : CharClass)

def isOurHookCommand (command : Text) : Bool :=
  "hook-augment".toList.isSuffixOf (command.reverse.dropWhile cc.isWhitespace).reverse

def isOurs (hook : Value) : Bool :=
  match hook.get "command".toList with
  | some (.string command) => isOurHookCommand cc command
  | _ => false

/-- The hooks of a block, `none` when it has no such array. -/
def blockHooks (block : Value) : Option (List Value) := (block.get "hooks".toList).bind Value.asArray

/-- The fields of `hooks` and its list `PreToolUse`, where both are there. -/
def hookList (obj : Fields) : Option (Fields × List Value) := do
  let hooks ← (obj.lookup "hooks".toList).bind Value.asObject
  let pre ← (hooks.lookup "PreToolUse".toList).bind Value.asArray
  some (hooks, pre)

def withHookList (pre : List Value) (hooks obj : Fields) : Fields :=
  insert "hooks".toList (.object (insert "PreToolUse".toList (.array pre) hooks)) obj

def ourBlock (command : Text) : Value :=
  .object [("hooks".toList, .array [.object [("command".toList, .string command),
      ("type".toList, .string "command".toList)]]),
    ("matcher".toList, .string hookMatcher)]

def mergeHookInstall (existing : File) (command : Text) : MergeOutcome :=
  match existing.fields with
  | none =>
      .refuse ("not editing Claude settings in place (unparseable). ".toList ++
        "Add a PreToolUse hook by hand: matcher \"".toList ++ hookMatcher ++
        "\", command \"".toList ++ command ++ "\".".toList) none
  | some obj =>
      match ((obj.lookup "hooks".toList).getD (.object [])).asObject with
      | none => .refuse "'hooks' is not an object".toList none
      | some hooks =>
          match ((hooks.lookup "PreToolUse".toList).getD (.array [])).asArray with
          | none => .refuse "'hooks.PreToolUse' is not an array".toList none
          | some pre =>
              if pre.any fun block => ((blockHooks block).getD []).any (isOurs cc) then .noChange
              else .write (.object (withHookList (pre ++ [ourBlock command]) hooks obj))

/-- Whether a block stays: its hooks are not all ours. -/
def retained (block : Value) : Bool :=
  match blockHooks block with
  | some hs => !hs.all (isOurs cc)
  | none => true

def mergeHookUninstall (existing : File) : MergeOutcome :=
  match existing.written with
  | none => .refuse "cannot parse Claude settings to uninstall the hook".toList none
  | some obj =>
      match hookList obj with
      | none => .noChange
      | some (hooks, arr) =>
          let kept := arr.filter (retained cc)
          if kept.length = arr.length then .noChange else .write (.object (withHookList kept hooks obj))

/-! ## A run of edits -/

/-- A `hook-augment` command line, as the caller builds it. -/
structure HookCommand where
  command : Text
  ours : isOurHookCommand cc command = true

/-- The edits of one settings file, for our server's name. -/
inductive Op where
  | install (command : Text) (args : List Text) (format : Format)
  | uninstall (format : Format)
  | hookInstall (hook : HookCommand cc)
  | hookUninstall

variable (name : Text)

def answer (existing : File) : Op cc → MergeOutcome
  | .install command args format => mergeInstall existing ⟨name, command, args⟩ format
  | .uninstall format => mergeUninstall existing name format
  | .hookInstall hook => mergeHookInstall cc existing hook.command
  | .hookUninstall => mergeHookUninstall cc existing

/-- A refused or unchanged edit leaves the file as it is. -/
def step (existing : File) (op : Op cc) : File :=
  match answer cc name existing op with
  | .write v => .json v
  | _ => existing

/-! ## What is not ours -/

/-- The block without our hooks, `none` when it had others of ours only. -/
def foreignBlock (block : Value) : Option Value :=
  match blockHooks block with
  | none => some block
  | some hs =>
      if hs ≠ [] ∧ hs.all (isOurs cc) then none
      else some (.object (insert "hooks".toList (.array (hs.filter (!isOurs cc ·)))
        (block.asObject.getD [])))

/-- A container without our server. -/
def foreignServers : Value → Value
  | .object servers => .object (remove name servers)
  | v => v

def foreignPre : Value → Value
  | .array blocks => .array (blocks.filterMap (foreignBlock cc))
  | v => v

/-- The hooks without ours, an absent list being an empty one. -/
def foreignHooks : Value → Value
  | .object hooks => .object (("PreToolUse".toList,
      foreignPre cc ((hooks.lookup "PreToolUse".toList).getD (.array []))) ::
        remove "PreToolUse".toList hooks)
  | v => v

/-- The value under a key of the settings, apart from our server and our hooks. -/
def outside (key : Text) (v : Option Value) : Option Value :=
  if key = "hooks".toList then some (foreignHooks cc (v.getD (.object [])))
  else if key ∈ [Format.mcpServers, .serversVscode, .contextServersZed].map Format.container then
    some (foreignServers name (v.getD (.object [])))
  else v

/-- What is not ours is the same after an edit, and no key is lost. -/
structure Kept (before after : Fields) : Prop where
  values : ∀ key, outside cc name key (after.lookup key) = outside cc name key (before.lookup key)
  keys : ∀ key, (before.lookup key).isSome → (after.lookup key).isSome
  hookKeys : ∀ key, ((before.lookup "hooks".toList).bind (·.get key)).isSome →
    ((after.lookup "hooks".toList).bind (·.get key)).isSome

/-- `Kept` for files; a file that is no JSON object stays as it is. -/
def KeptFile (before after : File) : Prop :=
  match before.fields with
  | none => after = before
  | some obj => ∃ obj', after.fields = some obj' ∧ Kept cc name obj obj'

/-- The hook blocks of a file. -/
def preToolUse (file : File) : List Value := ((file.written.bind hookList).map Prod.snd).getD []

def NoServer (format : Format) (file : File) : Prop :=
  ((file.written.bind (List.lookup format.container)).bind Value.asObject).bind (List.lookup name) =
    none

def NoHook (file : File) : Prop :=
  ∀ block ∈ preToolUse file, ∀ hook ∈ (blockHooks block).getD [], isOurs cc hook = false

/-- What an uninstall takes out is not in the file. -/
def Removed (file : File) : Op cc → Prop
  | .uninstall format => NoServer name format file
  | .hookUninstall => NoHook cc file
  | _ => True

/-- What an edit promises. A refused one is refused again. -/
structure Settled (file : File) (op : Op cc) : Prop where
  kept : KeptFile cc name file (step cc name file op)
  removed : Removed cc name (step cc name file op) op
  repeated : (∃ why snippet, answer cc name file op = .refuse why snippet) ∨
    answer cc name (step cc name file op) op = .noChange

/-- No hook block is empty, and none holds hooks of ours beside others. -/
def Unmixed (file : File) : Prop :=
  ∀ block ∈ preToolUse file, ∀ hs, blockHooks block = some hs →
    hs ≠ [] ∧ (hs.all (isOurs cc) = true ∨ ∀ hook ∈ hs, isOurs cc hook = false)

variable {cc name}

/-! ## One edit -/

theorem Kept.refl (obj : Fields) : Kept cc name obj obj :=
  ⟨fun _ => rfl, fun _ => id, fun _ => id⟩

theorem Kept.trans {a b c : Fields} (h : Kept cc name a b) (h' : Kept cc name b c) :
    Kept cc name a c where
  values key := (h'.values key).trans (h.values key)
  keys key := h'.keys key ∘ h.keys key
  hookKeys key := h'.hookKeys key ∘ h.hookKeys key

theorem KeptFile.refl (file : File) : KeptFile cc name file file := by
  unfold KeptFile
  split
  · rfl
  · next obj h => exact ⟨obj, h, .refl obj⟩

theorem KeptFile.trans {a b c : File} (h : KeptFile cc name a b) (h' : KeptFile cc name b c) :
    KeptFile cc name a c := by
  unfold KeptFile at h ⊢
  split at h
  · next hnone =>
    subst h
    rwa [KeptFile, hnone] at h'
  · obtain ⟨obj', hfields, hkept⟩ := h
    rw [KeptFile, hfields] at h'
    obtain ⟨obj'', hfields', hkept'⟩ := h'
    exact ⟨obj'', hfields', hkept.trans hkept'⟩

theorem Kept.insert {key : Text} {v : Value} {obj : Fields}
    (hview : outside cc name key (some v) = outside cc name key (obj.lookup key))
    (hhooks : key = "hooks".toList → ∀ k, ((obj.lookup key).bind (·.get k)).isSome → (v.get k).isSome) :
    Kept cc name obj (insert key v obj) := by
  refine ⟨fun k => ?_, fun k => ?_, fun k => ?_⟩
  · rw [lookup_insert]
    split
    · next hk => rw [hk, hview]
    · rfl
  · rw [lookup_insert]
    split
    · exact fun _ => rfl
    · exact id
  · rw [lookup_insert]
    split
    · next hk => exact fun h => hhooks hk.symm k (hk ▸ h)
    · exact id

theorem outside_container (format : Format) (v : Option Value) :
    outside cc name format.container v = some (foreignServers name (v.getD (.object []))) := by
  cases format <;> rfl

theorem container_ne_hooks (format : Format) : format.container ≠ "hooks".toList := by
  cases format <;> decide

theorem Kept.servers {format : Format} {obj servers servers' : Fields}
    (hcont : (obj.lookup format.container).getD (.object []) = .object servers)
    (hsame : remove name servers' = remove name servers) :
    Kept cc name obj (HostInstall.insert format.container (.object servers') obj) := by
  refine .insert ?_ fun h => absurd h (container_ne_hooks format)
  rw [outside_container, outside_container, hcont, Option.getD_some, foreignServers, foreignServers, hsame]

theorem Kept.hooks {obj hooks : Fields} {pre pre' : List Value}
    (hhooks : (obj.lookup "hooks".toList).getD (.object []) = .object hooks)
    (hpre : (hooks.lookup "PreToolUse".toList).getD (.array []) = .array pre)
    (hsame : pre'.filterMap (foreignBlock cc) = pre.filterMap (foreignBlock cc)) :
    Kept cc name obj (withHookList pre' hooks obj) := by
  refine .insert ?_ fun _ key hkey => ?_
  · have hview : ∀ v, outside cc name "hooks".toList v =
        some (foreignHooks cc (v.getD (.object []))) := fun v => if_pos rfl
    rw [hview, hview, hhooks, Option.getD_some, foreignHooks, foreignHooks, lookup_insert, if_pos rfl,
      remove_insert, hpre, Option.getD_some, foreignPre, foreignPre, hsame]
  · have hfields : (hooks.lookup key).isSome := by
      cases hlookup : obj.lookup "hooks".toList with
      | none =>
          rw [hlookup] at hkey
          cases hkey
      | some v =>
          rw [hlookup, Option.getD_some] at hhooks
          subst hhooks
          rw [hlookup] at hkey
          exact hkey
    rw [Value.get, Value.asObject, Option.bind_some, lookup_insert]
    split
    · rfl
    · exact hfields

theorem asObject_eq_some {v : Value} {fields : Fields} (h : v.asObject = some fields) :
    v = .object fields := by
  cases v <;> cases h
  rfl

theorem asArray_eq_some {v : Value} {items : List Value} (h : v.asArray = some items) :
    v = .array items := by
  cases v <;> cases h
  rfl

theorem File.fields_of_written {file : File} {obj : Fields} (h : file.written = some obj) :
    file.fields = some obj := by
  cases file <;> first | exact h | cases h

theorem KeptFile.of_write {file : File} {obj obj' : Fields} (h : file.fields = some obj)
    (hkept : Kept cc name obj obj') : KeptFile cc name file (.json (.object obj')) := by
  rw [KeptFile, h]
  exact ⟨obj', rfl, hkept⟩

theorem Settled.of_answer {file : File} {op : Op cc}
    (hwrite : ∀ v, answer cc name file op = .write v → KeptFile cc name file (.json v) ∧
      Removed cc name (.json v) op ∧ answer cc name (.json v) op = .noChange)
    (hsame : (∀ v, answer cc name file op ≠ .write v) → Removed cc name file op) :
    Settled cc name file op := by
  cases hanswer : answer cc name file op with
  | write v =>
      have hstep : step cc name file op = .json v := by rw [step, hanswer]
      obtain ⟨hkept, hremoved, hrepeated⟩ := hwrite v hanswer
      exact ⟨hstep ▸ hkept, hstep ▸ hremoved, Or.inr (hstep ▸ hrepeated)⟩
  | noChange =>
      have hstep : step cc name file op = file := by rw [step, hanswer]
      refine ⟨hstep.symm ▸ .refl file, hstep.symm ▸ hsame fun v => by rw [hanswer]; nofun, Or.inr ?_⟩
      rw [hstep, hanswer]
  | refuse why snippet =>
      have hstep : step cc name file op = file := by rw [step, hanswer]
      exact ⟨hstep.symm ▸ .refl file, hstep.symm ▸ hsame fun v => by rw [hanswer]; nofun,
        Or.inl ⟨why, snippet, hanswer⟩⟩

theorem settled_install (file : File) (command : Text) (args : List Text) (format : Format) :
    Settled cc name file (.install command args format) := by
  refine .of_answer (fun v hanswer => ?_) fun _ => trivial
  simp only [answer, mergeInstall] at hanswer
  split at hanswer
  · cases hanswer
  · next obj hfields =>
    split at hanswer
    · cases hanswer
    · next servers hservers =>
      split at hanswer
      · cases hanswer
      · cases hanswer
        refine ⟨.of_write hfields (.servers (asObject_eq_some hservers) (remove_insert ..)), trivial, ?_⟩
        simp [answer, mergeInstall, File.fields, Value.asObject, lookup_insert, Value.same_refl]

theorem lookup_remove (key : Text) (fields : Fields) : (remove key fields).lookup key = none :=
  lookup_eq_none_iff.mpr fun _ hfield =>
    bne_iff_ne.mpr (Ne.symm (of_decide_eq_true (mem_filter.mp hfield).2))

theorem settled_uninstall (file : File) (format : Format) :
    Settled cc name file (.uninstall format) := by
  refine .of_answer (fun v hanswer => ?_) fun hsame => ?_
  · simp only [answer, mergeUninstall] at hanswer
    split at hanswer
    · cases hanswer
    · next obj hwritten =>
      split at hanswer
      · cases hanswer
      · next servers hservers =>
        split at hanswer
        · cases hanswer
          obtain ⟨cont, hcont, hobject⟩ := Option.bind_eq_some_iff.mp hservers
          have hthere : (obj.lookup format.container).getD (.object []) = .object servers := by
            rw [hcont, Option.getD_some, asObject_eq_some hobject]
          refine ⟨.of_write (File.fields_of_written hwritten) (.servers hthere ?_), ?_, ?_⟩
          · simp [remove, filter_filter]
          · simp [Removed, NoServer, File.written, Value.asObject, lookup_insert, lookup_remove]
          · simp [answer, mergeUninstall, File.written, Value.asObject, lookup_insert, lookup_remove]
        · cases hanswer
  · simp only [answer, mergeUninstall] at hsame
    rw [Removed, NoServer]
    cases hwritten : file.written with
    | none => rfl
    | some obj =>
        rw [Option.bind_some]
        cases hservers : (obj.lookup format.container).bind Value.asObject with
        | none => rfl
        | some servers =>
            rw [hwritten] at hsame
            simp only [hservers] at hsame
            rw [Option.bind_some]
            by_contra hthere
            rw [if_pos (Option.isSome_iff_ne_none.mpr hthere)] at hsame
            exact hsame _ rfl

/-! ## The hook -/

theorem settled_hookInstall (file : File) (hook : HookCommand cc) :
    Settled cc name file (.hookInstall hook) := by
  have hblock : blockHooks (ourBlock hook.command) = some [.object
      [("command".toList, .string hook.command), ("type".toList, .string "command".toList)]] := rfl
  have hours : isOurs cc (.object [("command".toList, .string hook.command),
      ("type".toList, .string "command".toList)]) = true := hook.ours
  refine .of_answer (fun v hanswer => ?_) fun _ => trivial
  simp only [answer, mergeHookInstall] at hanswer
  split at hanswer
  · cases hanswer
  · next obj hfields =>
    split at hanswer
    · cases hanswer
    · next hooks hhooks =>
      split at hanswer
      · cases hanswer
      · next pre hpre =>
        split at hanswer
        · cases hanswer
        · cases hanswer
          refine ⟨.of_write hfields (.hooks (asObject_eq_some hhooks) (asArray_eq_some hpre) ?_),
            trivial, ?_⟩
          · have hforeign : foreignBlock cc (ourBlock hook.command) = none := by
              rw [foreignBlock, hblock]
              exact if_pos ⟨cons_ne_nil _ _, by rw [all_cons, hours, all_nil]; rfl⟩
            rw [filterMap_append, filterMap_cons_none hforeign, filterMap_nil,
              append_nil]
          · have hpresent : (pre ++ [ourBlock hook.command]).any
                (fun block => ((blockHooks block).getD []).any (isOurs cc)) = true := by
              refine any_eq_true.mpr ⟨_, mem_append_right _ mem_cons_self, ?_⟩
              rw [hblock, Option.getD_some, any_cons, hours, Bool.true_or]
            simp only [answer, mergeHookInstall, File.fields, Value.asObject, withHookList, lookup_insert,
              if_pos, Option.getD_some, Value.asArray, hpresent]

@[simp] theorem hookList_withHookList (pre : List Value) (hooks obj : Fields) :
    hookList (withHookList pre hooks obj) =
      some (insert "PreToolUse".toList (.array pre) hooks, pre) := by
  simp only [hookList, withHookList, lookup_insert, if_pos, Option.bind_eq_bind, Option.bind_some,
    Value.asObject, Value.asArray]

theorem preToolUse_of_hookList {file : File} {obj hooks : Fields} {pre : List Value}
    (hwritten : file.written = some obj) (hlist : hookList obj = some (hooks, pre)) :
    preToolUse file = pre := by
  rw [preToolUse, hwritten, Option.bind_some, hlist, Option.map_some, Option.getD_some]

theorem Kept.hookList {obj hooks : Fields} {pre pre' : List Value}
    (hlist : HostInstall.hookList obj = some (hooks, pre))
    (hsame : pre'.filterMap (foreignBlock cc) = pre.filterMap (foreignBlock cc)) :
    Kept cc name obj (withHookList pre' hooks obj) := by
  obtain ⟨hooks', hhooks, hlist⟩ := Option.bind_eq_some_iff.mp hlist
  obtain ⟨pre'', hpre, hlist⟩ := Option.bind_eq_some_iff.mp hlist
  cases hlist
  obtain ⟨v, hv, hobject⟩ := Option.bind_eq_some_iff.mp hhooks
  obtain ⟨w, hw, harray⟩ := Option.bind_eq_some_iff.mp hpre
  exact .hooks (by rw [hv, Option.getD_some, asObject_eq_some hobject])
    (by rw [hw, Option.getD_some, asArray_eq_some harray]) hsame

theorem noHook_of_retained {file : File} (hunmixed : Unmixed cc file) {block : Value}
    (hblock : block ∈ preToolUse file) (hretained : retained cc block = true) :
    ∀ hook ∈ (blockHooks block).getD [], isOurs cc hook = false := by
  cases hhooks : blockHooks block with
  | none => exact nofun
  | some hs =>
      rw [retained, hhooks] at hretained
      obtain ⟨-, hall | hnone⟩ := hunmixed block hblock hs hhooks
      · simp only [hall, Bool.not_true, Bool.false_eq_true] at hretained
      · exact hnone

theorem foreignBlock_of_not_retained {file : File} (hunmixed : Unmixed cc file) {block : Value}
    (hblock : block ∈ preToolUse file) (hgoes : ¬retained cc block = true) :
    foreignBlock cc block = none := by
  rw [retained] at hgoes
  split at hgoes
  · next hs hhooks =>
    rw [foreignBlock, hhooks]
    exact if_pos ⟨(hunmixed block hblock hs hhooks).1, by simpa using hgoes⟩
  · exact absurd rfl hgoes

theorem settled_hookUninstall {file : File} (hunmixed : Unmixed cc file) :
    Settled cc name file .hookUninstall := by
  refine .of_answer (fun v hanswer => ?_) fun hsame block hblock => ?_
  · simp only [answer, mergeHookUninstall] at hanswer
    split at hanswer
    · cases hanswer
    · next obj hwritten =>
      split at hanswer
      · cases hanswer
      · next hooks arr hlist =>
        have hpre := preToolUse_of_hookList hwritten hlist
        split at hanswer
        · cases hanswer
        · cases hanswer
          refine ⟨.of_write (File.fields_of_written hwritten) (.hookList hlist ?_), fun block hblock => ?_, ?_⟩
          · rw [filterMap_filter]
            refine filterMap_congr fun block hblock => ?_
            split
            · rfl
            · next hgoes => exact (foreignBlock_of_not_retained hunmixed (hpre ▸ hblock) hgoes).symm
          · rw [preToolUse_of_hookList rfl (hookList_withHookList ..)] at hblock
            obtain ⟨hmem, hretained⟩ := mem_filter.mp hblock
            exact noHook_of_retained hunmixed (hpre ▸ hmem) hretained
          · simp [answer, mergeHookUninstall, File.written, Value.asObject, filter_filter]
  · refine noHook_of_retained hunmixed hblock ?_
    simp only [answer, mergeHookUninstall] at hsame
    cases hwritten : file.written with
    | none => simp [preToolUse, hwritten] at hblock
    | some obj =>
        rw [hwritten] at hsame
        cases hlist : hookList obj with
        | none => simp [preToolUse, hwritten, hlist] at hblock
        | some list =>
            obtain ⟨hooks, arr⟩ := list
            rw [preToolUse_of_hookList hwritten hlist] at hblock
            simp only [hlist] at hsame
            split at hsame
            · next hlength => exact length_filter_eq_length_iff.mp hlength block hblock
            · exact absurd rfl (hsame _)

/-! ## A run of edits -/

end Hooks

section Example

/-- A `Bash` hook beside ours in one block. -/
private def mixedSettings : File :=
  let hook (command : String) := Value.object [("command".toList, .string command.toList)]
  let block := Value.object
    [("hooks".toList, .array [hook "/other/thing", hook "/bin/ap hook-augment"])]
  .json (.object [("hooks".toList, .object [("PreToolUse".toList, .array [block])])])

private def ourHook : HookCommand .ascii := ⟨"/bin/ap hook-augment".toList, by decide⟩

end Example

end HostInstall

end CodeGraph
