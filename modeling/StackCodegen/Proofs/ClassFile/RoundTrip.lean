import StackCodegen.Proofs.Except
import StackCodegen.Proofs.ClassFile.Building
import StackCodegen.Proofs.ClassFile.ModifiedUtf8
import StackCodegen.Proofs.ClassFile.WrittenSizes

/-!
# Class files are read back

A class is built from its names by adding methods one after the other; a method whose names find no
room is left out, and what it added to the constants stays (`addEach`). The stored form of such a
class is read by a reader that knows the format alone, with the texts decoded (`readClass?`).

Main statement: whatever methods were asked for, the reader goes through the stored form to its last
byte and finds the constants in order, the flags, the indices of the names, and each added method as
it was asked for, with a variable table where one was asked for (`readClass?_of_addEach`).
-/

set_option autoImplicit false

namespace StackCodegen.ClassFile

open ConstantPool

/-! ## Reading with texts -/

/-- A stored constant with its text decoded. -/
def StoredConstant.constant? : StoredConstant → Option Constant
  | utf8 body => (ModifiedUtf8.read? body).map .utf8
  | integer value => some (.integer value)
  | classRef name => some (.classRef name)
  | nameAndType name descriptor => some (.nameAndType name descriptor)
  | fieldRef owner member => some (.fieldRef owner member)
  | methodRef owner member => some (.methodRef owner member)

theorem constant?_stored (c : Constant) : c.stored.constant? = some c := by
  cases c with
  | utf8 text => rw [Constant.stored, StoredConstant.constant?, ModifiedUtf8.read?_encode]; rfl
  | _ => rfl

/-- A class as a reader of the format finds it: the constants in order, the flags, the indices of
its own and its superclass's constant, and the methods in order. -/
structure ReadClass where
  constants : List Constant
  accessFlags : UInt16
  thisClass : UInt16
  superClass : UInt16
  methods : List Method
  deriving DecidableEq

/-- The class that a sequence of bytes stores, if it stores one and nothing behind it. -/
def readClass? (bytes : Bytes) : Option ReadClass :=
  (read? bytes).bind fun c => (c.constants.mapM StoredConstant.constant?).map fun constants =>
    ⟨constants, c.accessFlags, c.thisClass, c.superClass, c.methods⟩

/-- What there is to be read of a class. -/
def contents (c : ClassFile) : ReadClass :=
  ⟨c.pool.entries.toList, c.accessFlags, c.thisClass, c.superClass, c.methods⟩

/-- The stored form of a class is read as what it holds. -/
theorem readClass?_bytes {c : ClassFile} (h : c.Storable) :
    readClass? c.bytes = some c.contents := by
  have hconstants : ∀ constants : List Constant,
      (constants.map Constant.stored).mapM StoredConstant.constant? = some constants := by
    intro constants
    induction constants with
    | nil => rfl
    | cons constant constants ih =>
        rw [List.map_cons, List.mapM_cons, constant?_stored, ih]
        rfl
  rw [readClass?, read?_bytes h, Option.bind_some, stored, hconstants]
  rfl

/-! ## Adding methods one after the other -/

/-- The requests that succeed where each is tried in turn, and the class at the end. -/
def addEach (c : ClassFile) : List MethodRequest → List MethodRequest × ClassFile
  | [] => ([], c)
  | r :: requests =>
    match c.add r with
    | (.ok (), c) =>
      let (added, c) := c.addEach requests
      (r :: added, c)
    | (.error _, c) => c.addEach requests

/-- A class that came from another one by adding methods. -/
structure Extends (c later : ClassFile) (added : List MethodRequest) : Prop where
  intact : later.Intact
  methods : ∃ new, c.Grown later new ∧ ∀ pool, IsPrefix later.pool pool →
    List.Forall₂ (MethodRequest.Yields pool.stored) added new

/-- Every request adds its method, or leaves the methods as they were. -/
theorem extends_of_addEach {c later : ClassFile} {requests added : List MethodRequest}
    (hintact : c.Intact)
    (hbodies : ∀ r ∈ requests, ∃ code : SymbolicCode, code.assemble = .ok r.body)
    (hentries : ∀ r ∈ requests, r.entries.length ≤ 65535)
    (h : c.addEach requests = (added, later)) : Extends c later added := by
  induction requests generalizing c added with
  | nil =>
      cases h
      exact ⟨hintact, [], Grown.refl _, fun _ _ => .nil⟩
  | cons r requests ih =>
      have hbodies' := fun r' hr' => hbodies r' (List.mem_cons_of_mem _ hr')
      have hentries' := fun r' hr' => hentries r' (List.mem_cons_of_mem _ hr')
      rw [addEach] at h
      rcases hadd : c.add r with ⟨e | done, mid⟩
      · rw [hadd] at h
        have hgrown := (refused_of_add hadd).grown
        obtain ⟨hlast, new, hnew, hyields⟩ :=
          ih (hintact.grown hgrown fun _ hm => absurd hm List.not_mem_nil) hbodies' hentries' h
        exact ⟨hlast, new, hgrown.trans hnew, hyields⟩
      · rw [hadd] at h
        dsimp only at h
        rcases hlast : mid.addEach requests with ⟨added', last⟩
        rw [hlast] at h
        cases h
        obtain ⟨code, hcode⟩ := hbodies r List.mem_cons_self
        obtain ⟨m, hadded⟩ := added_of_add hadd
        obtain ⟨hintact', new, hnew, hyields⟩ := ih
          (hadded.intact hintact (length_le_of_assemble hcode) (hentries r List.mem_cons_self))
          hbodies' hentries' hlast
        refine ⟨hintact', m :: new, hadded.grown.trans hnew, fun pool hpool => ?_⟩
        exact .cons (hadded.yields pool (hnew.leadsTo.isPrefix.trans hpool)) (hyields pool hpool)

/-- Class files are read back. The stored form of a class is what the class holds, each method
that was added is there as it was asked for, and one that could not be added changed no method and
no constant. -/
theorem readClass?_of_addEach {name superName : String} {c later : ClassFile}
    {requests added : List MethodRequest} (hnew : create name superName = .ok c)
    (hbodies : ∀ r ∈ requests, ∃ code : SymbolicCode, code.assemble = .ok r.body)
    (hentries : ∀ r ∈ requests, r.entries.length ≤ 65535)
    (h : c.addEach requests = (added, later)) (hcount : added.length < 65536) :
    readClass? later.bytes = some later.contents ∧ later.Named name superName ∧
      List.Forall₂ (MethodRequest.Yields later.pool.stored) added later.methods ∧
      ∀ (d d' : ClassFile) (r : MethodRequest) (e : CodegenError), d.add r = (.error e, d') →
        d'.methods = d.methods ∧
          ∀ index constant, d.pool.get? index = some constant →
            d'.pool.get? index = some constant := by
  have hcreated := created_of_create hnew
  obtain ⟨hintact, methods, hgrown, hyields⟩ :=
    extends_of_addEach hcreated.intact hbodies hentries h
  have hmethods := hgrown.methods_eq
  rw [hcreated.methods_eq, List.nil_append] at hmethods
  have hall := hyields later.pool (IsPrefix.refl _)
  rw [← hmethods] at hall
  have hflags := hgrown.accessFlags_eq.trans hcreated.accessFlags_eq
  refine ⟨readClass?_bytes (hintact.storable ?_), (hcreated.titled.grown hgrown).named hflags, hall,
    fun d d' r e hadd => ?_⟩
  · rw [← hall.length_eq]
    exact Nat.le_of_lt_succ hcount
  · have hleft := (refused_of_add hadd).grown
    have hsame := hleft.methods_eq
    rw [List.append_nil] at hsame
    exact ⟨hsame, fun index constant => hleft.leadsTo.isPrefix.get?⟩

/-- Code that returns at once. -/
def returning : SymbolicCode := ⟨#[.plain .returnVoid], 0⟩

/-- A method with a variable whose name is not ASCII, and one without variables. -/
def namedAndBare (body : MethodCode) : List MethodRequest :=
  [⟨9, "main", "()V", body, 1, [⟨"größe𝔸", "I", 0⟩]⟩, ⟨1, "bare", "()V", body, 1, []⟩]

/-- Both methods are read back, the first one with its table. -/
theorem namedAndBare_read_back :
    ∃ c m later, create "P" "java/lang/Object" = .ok c ∧ returning.assemble = .ok m ∧
      c.addEach (namedAndBare m) = (namedAndBare m, later) ∧
      readClass? later.bytes = some
        ⟨[.utf8 "P", .classRef 1, .utf8 "java/lang/Object", .classRef 3, .utf8 "Code",
            .utf8 "main", .utf8 "()V", .utf8 "LocalVariableTable", .utf8 "größe𝔸", .utf8 "I",
            .utf8 "bare"], 0x21, 2, 4,
          [⟨9, 6, 7, 0, 1, [177], some ⟨[⟨0, 1, 9, 10, 0⟩]⟩⟩,
            ⟨1, 11, 7, 0, 1, [177], none⟩]⟩ := by
  obtain ⟨m, hm⟩ := exists_ok_of_toBool (by decide +kernel : returning.assemble.toBool = true)
  obtain ⟨c, hc⟩ := exists_ok_of_toBool
    (by decide +kernel : (create "P" "java/lang/Object").toBool = true)
  have hbody : returning.assemble.toOption = some ⟨[177], 0, []⟩ := by decide +kernel
  rw [hm] at hbody
  cases Option.some.inj hbody
  have hrun : (create "P" "java/lang/Object").toOption.map (fun c =>
      ((c.addEach (namedAndBare ⟨[177], 0, []⟩)).1,
        (c.addEach (namedAndBare ⟨[177], 0, []⟩)).2.contents)) =
      some (namedAndBare ⟨[177], 0, []⟩,
        ⟨[.utf8 "P", .classRef 1, .utf8 "java/lang/Object", .classRef 3, .utf8 "Code",
            .utf8 "main", .utf8 "()V", .utf8 "LocalVariableTable", .utf8 "größe𝔸", .utf8 "I",
            .utf8 "bare"], 0x21, 2, 4,
          [⟨9, 6, 7, 0, 1, [177], some ⟨[⟨0, 1, 9, 10, 0⟩]⟩⟩,
            ⟨1, 11, 7, 0, 1, [177], none⟩]⟩) := by
    decide +kernel
  rw [hc] at hrun
  obtain ⟨hadded, hcontents⟩ := Prod.mk.inj (Option.some.inj hrun)
  have hbodies : ∀ r ∈ namedAndBare ⟨[177], 0, []⟩,
      ∃ code : SymbolicCode, code.assemble = .ok r.body := by
    have hsame : ∀ r ∈ namedAndBare ⟨[177], 0, []⟩, r.body = ⟨[177], 0, []⟩ := by decide
    intro r hr
    exact ⟨returning, by rw [hsame r hr, hm]⟩
  have hread := readClass?_of_addEach hc hbodies (by decide) (Prod.ext hadded rfl) (by decide)
  exact ⟨c, _, _, hc, hm, Prod.ext hadded rfl, hcontents ▸ hread.1⟩

end StackCodegen.ClassFile
