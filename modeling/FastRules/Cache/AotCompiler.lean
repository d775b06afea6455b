import FastRules.Foundations.EventRun
import FastRules.Rule.Basic
import Mathlib

/-!
# The bytecode cache

Compilers keep the bytecode of expressions in memory and in a directory that they share. A file is
named by the hash of its expression, written in place, and taken for the bytecode of whatever
expression leads to it. So a chunk is right unless it comes from a file whose last write was for
another expression with the same hash, or was cut short (`chunks_right_iff`).
-/

open EventRun

namespace FastRules

/-- `luaL_loadstring`, with its message if it has one, and `lua_dump`. -/
structure ChunkCompiler where
  Function : Type
  loadstring : String → Except (Option String) Function
  dump : Function → Option String

structure AotCompiledChunk where
  bytecode : String
  compiledAt : Int
  hitCount : ℕ := 0

/-- The chunk with one more hit. -/
def AotCompiledChunk.hit (chunk : AotCompiledChunk) : AotCompiledChunk :=
  { chunk with hitCount := chunk.hitCount + 1 }

structure AotCompiler where
  cache : List (String × AotCompiledChunk) := []
  useDiskCache : Bool := true

/-- The write that has made a file what it is: the expression that it was for, what was to be
written, and how many bytes of it were. -/
structure FileWrite where
  expression : String
  text : String
  count : ℕ

/-- What is in the file. -/
def FileWrite.content (w : FileWrite) : String :=
  String.ofList (w.text.toList.take w.count)

/-- The files in the cache directory. -/
abbrev CacheDirectory := String → Option FileWrite

/-- What the file system makes of a call: whether `exists` returns, whether the file can be opened
for reading, and how many bytes are written to it if it can be opened for that. -/
structure FileAccess where
  probes : Bool := true
  opens : Bool := true
  written : Option ℕ

namespace AotCompiler

variable (lua : ChunkCompiler) (hash : String → BitVec 64)

/-- `AotCompiler::compileToBytecode`, for a Lua state that may be null. -/
def compileToBytecode (state : Bool) (expression : String) : Except String String :=
  if state then
    match lua.loadstring (cStr expression) with
    | .error message =>
      .error ("Failed to compile expression: " ++ message.getD "Unknown compilation error")
    | .ok function =>
      match lua.dump function with
      | none => .error "Failed to dump compiled function to bytecode"
      | some bytecode => .ok bytecode
  else .error "Lua state is null"

/-- The file for an expression. -/
def cacheFile (expression : String) : String :=
  toString (hash expression).toNat ++ ".frc"

/-- The file that `saveCache` writes. -/
def indexFile : String := "index.frc"

/-- `cache_.find`. -/
def find (c : AotCompiler) (expression : String) : Option (String × AotCompiledChunk) :=
  c.cache.find? fun entry ↦ entry.1 = expression

/-- Count a hit of an expression. -/
def hit (c : AotCompiler) (expression : String) : AotCompiler :=
  { c with
    cache := c.cache.map fun entry ↦
      if entry.1 = expression then (entry.1, entry.2.hit) else entry }

/-- `cache_.emplace`, for an expression that is not in the cache. -/
def emplace (c : AotCompiler) (expression : String) (chunk : AotCompiledChunk) : AotCompiler :=
  { c with cache := (expression, chunk) :: c.cache }

/-- The file that is read for an expression. -/
def fileFor (c : AotCompiler) (disk : CacheDirectory) (expression : String) (io : FileAccess) :
    Option FileWrite :=
  if c.useDiskCache && io.opens then disk (cacheFile hash expression) else none

/-- The directory after bytecode was saved for an expression. -/
def save (c : AotCompiler) (disk : CacheDirectory) (expression bytecode : String)
    (io : FileAccess) : CacheDirectory :=
  match c.useDiskCache, io.written with
  | true, some count =>
    Function.update disk (cacheFile hash expression) (some ⟨expression, bytecode, count⟩)
  | _, _ => disk

/-- `AotCompiler::getOrCompile`, with the chunk or what is thrown. -/
def getOrCompile (c : AotCompiler) (disk : CacheDirectory) (expression : String) (state : Bool)
    (io : FileAccess) (now : Int) : Except String AotCompiledChunk × AotCompiler × CacheDirectory :=
  match c.find expression with
  | some entry => (.ok entry.2.hit, c.hit expression, disk)
  | none =>
    if c.useDiskCache && !io.probes then (.error "filesystem error", c, disk)
    else
      match c.fileFor hash disk expression io with
      | some file =>
        let chunk : AotCompiledChunk :=
          { bytecode := file.content, compiledAt := now, hitCount := 1 }
        (.ok chunk, c.emplace expression chunk, disk)
      | none =>
        match compileToBytecode lua state expression with
        | .error e => (.error e, c, disk)
        | .ok bytecode =>
          let chunk : AotCompiledChunk :=
            { bytecode := bytecode, compiledAt := now, hitCount := 1 }
          (.ok chunk, c.emplace expression chunk, c.save hash disk expression bytecode io)

/-- `AotCompiler::clearCache`. Some files may stay. -/
def clearCache (c : AotCompiler) (disk : CacheDirectory) (stays : String → Bool) :
    AotCompiler × CacheDirectory :=
  ({ c with cache := [] }, fun name ↦ if c.useDiskCache && !stays name then none else disk name)

/-- The lines of the index. -/
def indexText (entries : List (String × AotCompiledChunk)) : String :=
  String.join (entries.map fun entry ↦
    toString (hash entry.1).toNat ++ "=" ++ entry.1 ++ "\n")

/-- `AotCompiler::saveCache`. -/
def saveCache (c : AotCompiler) (disk : CacheDirectory)
    (order : HashOrder (String × AotCompiledChunk)) (written : Option ℕ) : CacheDirectory :=
  match c.useDiskCache, written with
  | true, some count =>
    Function.update disk indexFile (some ⟨"", indexText hash (order.visit c.cache), count⟩)
  | _, _ => disk

/-! ### Runs -/

/-- A call of one of the compilers. -/
inductive Call where
  /-- The constructor, which may fail to create the directory. -/
  | create (compiler : ℕ) (created : Bool)
  | getOrCompile (compiler : ℕ) (expression : String) (state : Bool) (io : FileAccess) (now : Int)
  | clearCache (compiler : ℕ) (stays : String → Bool)
  | saveCache (compiler : ℕ) (order : HashOrder (String × AotCompiledChunk)) (written : Option ℕ)

/-- The compilers and the directory that they share. -/
structure Shared where
  compilers : ℕ → AotCompiler := fun _ ↦ {}
  disk : CacheDirectory := fun _ ↦ none

/-- One call. -/
def Shared.step (s : Shared) : Call → Shared
  | .create i created =>
    { s with compilers := Function.update s.compilers i { useDiskCache := created } }
  | .getOrCompile i expression state io now =>
    let (_, c, disk) := (s.compilers i).getOrCompile lua hash s.disk expression state io now
    { compilers := Function.update s.compilers i c, disk := disk }
  | .clearCache i stays =>
    let (c, disk) := (s.compilers i).clearCache s.disk stays
    { compilers := Function.update s.compilers i c, disk := disk }
  | .saveCache i order written =>
    { s with disk := (s.compilers i).saveCache hash s.disk order written }

/-- A chunk that is returned holds the bytecode of the expression. -/
def Right (s : Shared) : Call → Prop
  | .getOrCompile i expression state io now => ∀ chunk,
    ((s.compilers i).getOrCompile lua hash s.disk expression state io now).1 = .ok chunk →
      compileToBytecode lua true expression = .ok chunk.bytecode
  | _ => True

/-- The call asks the file for the expression. -/
def AsksFile (c : AotCompiler) (expression : String) (io : FileAccess) : Prop :=
  c.find expression = none ∧ c.useDiskCache = true ∧ io.probes = true ∧ io.opens = true

/-- What the write has put into the file, of the bytecode of its expression, is the bytecode of this
one. -/
def Holds (w : FileWrite) (expression : String) : Prop :=
  ∃ bytecode, compileToBytecode lua true w.expression = .ok bytecode ∧
    compileToBytecode lua true expression =
      .ok (String.ofList (bytecode.toList.take w.count))

/-- If a file is asked for an expression, its last write holds. -/
def Intact (s : Shared) : Call → Prop
  | .getOrCompile i expression _ io _ =>
    AsksFile (s.compilers i) expression io →
      ∀ w, s.disk (cacheFile hash expression) = some w → Holds lua w expression
  | _ => True

variable {lua hash} {c : AotCompiler} {disk : CacheDirectory} {expression : String} {state : Bool}
  {io : FileAccess} {now : Int} {s : Shared}

theorem cacheFile_ne_indexFile (expression : String) : cacheFile hash expression ≠ indexFile := by
  intro h
  have hrepr :
      (toString (hash expression).toNat).toList = Nat.toDigits 10 (hash expression).toNat :=
    String.toList_ofList
  have htext : Nat.toDigits 10 (hash expression).toNat ++ ".frc".toList =
      "index".toList ++ ".frc".toList := by
    rw [← hrepr, ← String.toList_append]
    exact congrArg String.toList h
  have hmem : 'i' ∈ Nat.toDigits 10 (hash expression).toNat := by
    rw [List.append_cancel_right htext]
    decide
  have hdigit : 'i'.isDigit = true := Nat.isDigit_of_mem_toDigits (by decide) (by decide) hmem
  exact absurd hdigit (by decide)

/-- **The ways of a call**: from memory, from a file, through the Lua state, or not at all. -/
theorem getOrCompile_cases
    {P : Except String AotCompiledChunk × AotCompiler × CacheDirectory → Prop}
    (memory : ∀ entry, c.find expression = some entry →
      P (.ok entry.2.hit, c.hit expression, disk))
    (file : ∀ w, AsksFile c expression io → disk (cacheFile hash expression) = some w →
      ∀ chunk : AotCompiledChunk, chunk.bytecode = w.content →
        P (.ok chunk, c.emplace expression chunk, disk))
    (compiled : ∀ bytecode, (AsksFile c expression io → disk (cacheFile hash expression) = none) →
      compileToBytecode lua true expression = .ok bytecode →
      ∀ chunk : AotCompiledChunk, chunk.bytecode = bytecode →
        P (.ok chunk, c.emplace expression chunk, c.save hash disk expression bytecode io))
    (failed : ∀ e, (AsksFile c expression io → disk (cacheFile hash expression) = none) →
      P (.error e, c, disk)) :
    P (c.getOrCompile lua hash disk expression state io now) := by
  rw [getOrCompile]
  rcases hfind : c.find expression with - | entry
  · dsimp only
    split_ifs with hprobe
    · refine failed _ fun hasks ↦ ?_
      simp [hasks.2.2.1] at hprobe
    · rcases hfile : c.fileFor hash disk expression io with - | w
      · have hnone : AsksFile c expression io → disk (cacheFile hash expression) = none := by
          rintro ⟨-, hdisk, -, hopens⟩
          rwa [fileFor, hdisk, hopens] at hfile
        cases state with
        | false => exact failed _ hnone
        | true =>
          rcases hcompile : compileToBytecode lua true expression with e | bytecode
          · exact failed e hnone
          · exact compiled bytecode hnone hcompile _ rfl
      · rw [fileFor] at hfile
        split_ifs at hfile with hopens
        obtain ⟨hdisk, hopens⟩ := Bool.and_eq_true_iff.1 hopens
        have hprobes : io.probes = true := by simpa [hdisk] using hprobe
        exact file w ⟨hfind, hdisk, hprobes, hopens⟩ hfile _ rfl
  · exact memory entry hfind

/-! ### What is right -/

/-- What is in memory is right, and what was to be written into a file is the bytecode of the
expression that it was for. -/
structure Faithful (lua : ChunkCompiler) (hash : String → BitVec 64) (s : Shared) : Prop where
  memory : ∀ i, ∀ entry ∈ (s.compilers i).cache,
    compileToBytecode lua true entry.1 = .ok entry.2.bytecode
  files : ∀ expression w, s.disk (cacheFile hash expression) = some w →
    compileToBytecode lua true w.expression = .ok w.text

theorem faithful_start (lua : ChunkCompiler) (hash : String → BitVec 64) :
    Faithful lua hash {} where
  memory := fun _ _ h ↦ absurd h List.not_mem_nil
  files := fun _ _ h ↦ by cases h

theorem mem_of_find {entry : String × AotCompiledChunk} (h : c.find expression = some entry) :
    entry ∈ c.cache ∧ entry.1 = expression :=
  ⟨List.mem_of_find?_eq_some h, by simpa using List.find?_some h⟩

/-- **A call is right if the file that it asks is intact.** -/
theorem right_iff (h : Faithful lua hash s) (call : Call) :
    Right lua hash s call ↔ Intact lua hash s call := by
  cases call with
  | create | clearCache | saveCache => exact Iff.rfl
  | getOrCompile i expression state io now =>
    rw [Right, Intact]
    have hnone {P : FileWrite → Prop} (hnone : AsksFile (s.compilers i) expression io →
        s.disk (cacheFile hash expression) = none) : AsksFile (s.compilers i) expression io →
        ∀ w, s.disk (cacheFile hash expression) = some w → P w := fun hasks w hw ↦ by
      rw [hnone hasks] at hw
      cases hw
    refine getOrCompile_cases
      (P := fun r ↦ (∀ chunk, r.1 = .ok chunk →
        compileToBytecode lua true expression = .ok chunk.bytecode) ↔ _)
      (fun entry hfind ↦ ?_) (fun w hasks hw chunk hchunk ↦ ?_)
      (fun bytecode hfile hcompile chunk hchunk ↦ ?_) (fun e hfile ↦ ?_)
    · refine iff_of_true (fun chunk hchunk ↦ ?_) fun hasks ↦ ?_
      · obtain rfl := Except.ok.inj hchunk
        obtain ⟨hmem, rfl⟩ := mem_of_find hfind
        exact h.memory i entry hmem
      · cases hfind.symm.trans hasks.1
    · constructor
      · intro hright _ w' hw'
        obtain rfl := Option.some.inj (hw.symm.trans hw')
        refine ⟨w.text, h.files expression w hw, ?_⟩
        rw [hright chunk rfl, hchunk, FileWrite.content]
      · intro hintact chunk' hchunk'
        obtain rfl := Except.ok.inj hchunk'
        obtain ⟨bytecode, hbytecode, hright⟩ := hintact hasks w hw
        obtain rfl := Except.ok.inj (hbytecode.symm.trans (h.files expression w hw))
        rw [hchunk]
        exact hright
    · refine iff_of_true (fun chunk' hchunk' ↦ ?_) (hnone hfile)
      obtain rfl := Except.ok.inj hchunk'
      rw [hcompile, hchunk]
    · exact iff_of_true (fun _ h ↦ by cases h) (hnone hfile)

theorem compilers_update {i j : ℕ} {entry : String × AotCompiledChunk}
    (h : entry ∈ (Function.update s.compilers i c j).cache) :
    entry ∈ c.cache ∨ entry ∈ (s.compilers j).cache := by
  rcases eq_or_ne j i with rfl | hne
  · rw [Function.update_self] at h
    exact .inl h
  · rw [Function.update_of_ne hne] at h
    exact .inr h

/-- A file after a write is the one written, or as before. -/
theorem file_update {name name' : String} {file w : FileWrite}
    (h : Function.update disk name (some file) name' = some w) :
    name' = name ∧ w = file ∨ disk name' = some w := by
  rcases eq_or_ne name' name with rfl | hne
  · rw [Function.update_self] at h
    exact .inl ⟨rfl, (Option.some.inj h).symm⟩
  · rw [Function.update_of_ne hne] at h
    exact .inr h

theorem save_eq (hash : String → BitVec 64) (c : AotCompiler) (disk : CacheDirectory)
    (expression bytecode : String) (io : FileAccess) :
    c.save hash disk expression bytecode io = disk ∨
      ∃ count, c.save hash disk expression bytecode io =
        Function.update disk (cacheFile hash expression) (some ⟨expression, bytecode, count⟩) := by
  unfold save
  split
  · exact .inr ⟨_, rfl⟩
  · exact .inl rfl

theorem saveCache_eq (hash : String → BitVec 64) (c : AotCompiler) (disk : CacheDirectory)
    (order : HashOrder (String × AotCompiledChunk)) (written : Option ℕ) :
    c.saveCache hash disk order written = disk ∨
      ∃ file, c.saveCache hash disk order written =
        Function.update disk indexFile (some file) := by
  unfold saveCache
  split
  · exact .inr ⟨_, rfl⟩
  · exact .inl rfl

theorem right_hit
    (h : ∀ entry ∈ c.cache, compileToBytecode lua true entry.1 = .ok entry.2.bytecode) :
    ∀ entry ∈ (c.hit expression).cache,
      compileToBytecode lua true entry.1 = .ok entry.2.bytecode := by
  intro entry hentry
  obtain ⟨old, hold, rfl⟩ := List.mem_map.1 hentry
  have hright := h old hold
  split_ifs
  · exact hright
  · exact hright

theorem right_emplace {chunk : AotCompiledChunk}
    (h : ∀ entry ∈ c.cache, compileToBytecode lua true entry.1 = .ok entry.2.bytecode)
    (hchunk : compileToBytecode lua true expression = .ok chunk.bytecode) :
    ∀ entry ∈ (c.emplace expression chunk).cache,
      compileToBytecode lua true entry.1 = .ok entry.2.bytecode :=
  List.forall_mem_cons.2 ⟨hchunk, h⟩

namespace Faithful

/-- A compiler with a cache that is right may take the place of another. -/
theorem update_memory (h : Faithful lua hash s) (i : ℕ)
    (hc : ∀ entry ∈ c.cache, compileToBytecode lua true entry.1 = .ok entry.2.bytecode) (j : ℕ) :
    ∀ entry ∈ (Function.update s.compilers i c j).cache,
      compileToBytecode lua true entry.1 = .ok entry.2.bytecode :=
  fun entry hentry ↦ (compilers_update hentry).elim (hc entry) (h.memory j entry)

theorem save_files (h : Faithful lua hash s) {bytecode : String}
    (hcompile : compileToBytecode lua true expression = .ok bytecode) {e : String} {w : FileWrite}
    (hw : c.save hash s.disk expression bytecode io (cacheFile hash e) = some w) :
    compileToBytecode lua true w.expression = .ok w.text := by
  rcases save_eq hash c s.disk expression bytecode io with hsave | ⟨_, hsave⟩ <;> rw [hsave] at hw
  · exact h.files e w hw
  · rcases file_update hw with ⟨-, rfl⟩ | hw
    · exact hcompile
    · exact h.files e w hw

theorem saveCache_files (h : Faithful lua hash s)
    {order : HashOrder (String × AotCompiledChunk)} {written : Option ℕ} {e : String}
    {w : FileWrite} (hw : c.saveCache hash s.disk order written (cacheFile hash e) = some w) :
    compileToBytecode lua true w.expression = .ok w.text := by
  rcases saveCache_eq hash c s.disk order written with hsave | ⟨file, hsave⟩ <;> rw [hsave] at hw
  · exact h.files e w hw
  · rcases file_update hw with ⟨hname, -⟩ | hw
    · exact absurd hname (cacheFile_ne_indexFile e)
    · exact h.files e w hw

/-- What is right is kept. -/
theorem step {call : Call} (h : Faithful lua hash s) (hright : Right lua hash s call) :
    Faithful lua hash (s.step lua hash call) := by
  have hempty : ∀ entry ∈ ([] : List (String × AotCompiledChunk)),
      compileToBytecode lua true entry.1 = .ok entry.2.bytecode :=
    fun _ hmem ↦ absurd hmem List.not_mem_nil
  cases call with
  | create i created => exact ⟨h.update_memory i hempty, h.files⟩
  | clearCache i stays =>
    refine ⟨h.update_memory i hempty, fun expression w hw ↦ ?_⟩
    simp only [Shared.step, clearCache] at hw
    split_ifs at hw
    exact h.files expression w hw
  | saveCache i order written => exact ⟨h.memory, fun _ _ hw ↦ h.saveCache_files hw⟩
  | getOrCompile i expression state io now =>
    rw [Right] at hright
    rw [Shared.step]
    have hold := h.memory i
    revert hright
    refine getOrCompile_cases
      (P := fun r ↦ (∀ chunk, r.1 = .ok chunk →
          compileToBytecode lua true expression = .ok chunk.bytecode) →
        Faithful lua hash ⟨Function.update s.compilers i r.2.1, r.2.2⟩)
      (fun _ _ _ ↦ ⟨h.update_memory i (right_hit hold), h.files⟩)
      (fun _ _ _ chunk _ hright ↦
        ⟨h.update_memory i (right_emplace hold (hright chunk rfl)), h.files⟩)
      (fun _ _ hcompile chunk _ hright ↦
        ⟨h.update_memory i (right_emplace hold (hright chunk rfl)),
          fun _ _ hw ↦ h.save_files hcompile hw⟩)
      (fun _ _ _ ↦ ⟨h.update_memory i hold, h.files⟩)

end Faithful

/-- **The chunks of a run are right if the files that it asks are intact**, whatever the hash
function is. -/
theorem chunks_right_iff (lua : ChunkCompiler) (hash : String → BitVec 64) (calls : List Call) :
    Along (Shared.step lua hash) (Right lua hash) {} calls ↔
      Along (Shared.step lua hash) (Intact lua hash) {} calls :=
  along_iff (along_true _ _ _) (faithful_start lua hash) (fun _ call h _ ↦ right_iff h call)
    fun _ call h _ hintact ↦ h.step ((right_iff h call).2 hintact)

/-- Chunks that are the text behind a signature. -/
def signed : ChunkCompiler where
  Function := String
  loadstring := Except.ok
  dump text := some ("\x1bLua" ++ text)

/-- A file that is cut short after three bytes, and is asked by another compiler. -/
def cutShort : List Call :=
  [.getOrCompile 0 "return 1" true { written := some 3 } 0,
    .getOrCompile 1 "return 1" true { written := none } 0]

/-- What is left of a chunk is taken for the chunk. -/
theorem cutShort_not_right (hash : String → BitVec 64) :
    ¬Along (Shared.step signed hash) (Right signed hash) {} cutShort := by
  rintro ⟨-, hlast, -⟩
  have hwrong := hlast { bytecode := "\x1bLu", compiledAt := 0, hitCount := 1 } (by
    simp [Shared.step, getOrCompile, find, fileFor, save, compileToBytecode, signed,
      Function.update, FileWrite.content])
  exact absurd hwrong (by decide)

/-- The same with one hash function. -/
theorem cutShort_not_right_length :
    ¬Along (Shared.step signed fun s ↦ BitVec.ofNat 64 s.length)
      (Right signed fun s ↦ BitVec.ofNat 64 s.length) {} cutShort :=
  cutShort_not_right _

end AotCompiler

end FastRules
