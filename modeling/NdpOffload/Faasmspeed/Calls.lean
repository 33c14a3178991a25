import NdpOffload.Faasmspeed.Offload
import NdpOffload.Library.Json

/-! The requests as they are posted.  Each is a JSON document that the load
generator puts together from texts without looking into them; the options say that
these must be such as can stand in a JSON string. -/
namespace NdpOffload.Faasmspeed.Calls

open Library Library.Json Library.Runs Library.Text Generator Conservation Offload

/-! ### Bodies -/

def makeJsonCall (user function inputData : Chars) (forbidNdp forceStorage : Bool) : Chars :=
  "\x7b\"user\":\"".toList ++ user ++ "\",\"function\":\"".toList ++ function ++
    "\",\"input_data\":\"".toList ++ inputData ++ "\",\"forbid_ndp\":".toList ++
    (if forbidNdp then "true".toList else "false".toList) ++
    (if forceStorage then ",\"is_storage\":true".toList else []) ++ ['\x7d']

/-- What the platform is meant to be told. -/
def callDocument (user function inputData : Chars) (forbidNdp forceStorage : Bool) : Value :=
  .object ([("user".toList, .string user), ("function".toList, .string function),
    ("input_data".toList, .string inputData), ("forbid_ndp".toList, .bool forbidNdp)] ++
    if forceStorage then [("is_storage".toList, .bool true)] else [])

/-- The members of a body, as they are written. -/
def callMembers (user function inputData : Chars) (forbidNdp forceStorage : Bool) :
    List (Chars × Chars) :=
  [("user".toList, '"' :: (user ++ ['"'])), ("function".toList, '"' :: (function ++ ['"'])),
    ("input_data".toList, '"' :: (inputData ++ ['"'])),
    ("forbid_ndp".toList, if forbidNdp then "true".toList else "false".toList)] ++
    if forceStorage then [("is_storage".toList, "true".toList)] else []

/-- The text of an object with these members, put together from its pieces. -/
theorem text_of_members (userName functionName inputName forbidName storageName user function
    inputData forbidden yes : Chars) (forceStorage : Bool) :
    '\x7b' :: '"' :: (userName ++ ['"', ':', '"']) ++ user ++
        '"' :: ',' :: '"' :: (functionName ++ ['"', ':', '"']) ++ function ++
        '"' :: ',' :: '"' :: (inputName ++ ['"', ':', '"']) ++ inputData ++
        '"' :: ',' :: '"' :: (forbidName ++ ['"', ':']) ++ forbidden ++
        (if forceStorage then ',' :: '"' :: (storageName ++ '"' :: ':' :: yes) else []) ++
        ['\x7d'] =
      '\x7b' :: (joinWith ',' (([(userName, '"' :: (user ++ ['"'])),
        (functionName, '"' :: (function ++ ['"'])), (inputName, '"' :: (inputData ++ ['"'])),
        (forbidName, forbidden)] ++ if forceStorage then [(storageName, yes)] else []).map
          memberText) ++ ['\x7d']) := by
  cases forceStorage <;> simp [memberText, joinWith]

theorem makeJsonCall_eq (user function inputData : Chars) (forbidNdp forceStorage : Bool) :
    makeJsonCall user function inputData forbidNdp forceStorage =
      '\x7b' :: (joinWith ',' ((callMembers user function inputData forbidNdp forceStorage).map
        memberText) ++ ['\x7d']) := by
  have huser : "\x7b\"user\":\"".toList = '\x7b' :: '"' :: ("user".toList ++ ['"', ':', '"']) := by
    decide +kernel
  have hfunction : "\",\"function\":\"".toList =
      '"' :: ',' :: '"' :: ("function".toList ++ ['"', ':', '"']) := by decide +kernel
  have hinput : "\",\"input_data\":\"".toList =
      '"' :: ',' :: '"' :: ("input_data".toList ++ ['"', ':', '"']) := by decide +kernel
  have hforbid : "\",\"forbid_ndp\":".toList =
      '"' :: ',' :: '"' :: ("forbid_ndp".toList ++ ['"', ':']) := by decide +kernel
  have hstorage : ",\"is_storage\":true".toList =
      ',' :: '"' :: ("is_storage".toList ++ '"' :: ':' :: "true".toList) := by decide +kernel
  have htext := text_of_members "user".toList "function".toList "input_data".toList
    "forbid_ndp".toList "is_storage".toList user function inputData
    (if forbidNdp then "true".toList else "false".toList) "true".toList forceStorage
  rw [← huser, ← hfunction, ← hinput, ← hforbid, ← hstorage] at htext
  exact htext

/-- A body says what it is meant to say exactly if its texts can stand between quotes. -/
theorem parse_makeJsonCall_iff (user function inputData : Chars) (forbidNdp forceStorage : Bool) :
    parse (makeJsonCall user function inputData forbidNdp forceStorage) =
        some (callDocument user function inputData forbidNdp forceStorage) ↔
      isContents .plain user = true ∧ isContents .plain function = true ∧
        isContents .plain inputData = true := by
  constructor
  · intro hparse
    exact ⟨isContents_of_parse hparse (List.mem_append_left _ List.mem_cons_self),
      isContents_of_parse hparse (List.mem_append_left _ (List.mem_cons_of_mem _
        List.mem_cons_self)),
      isContents_of_parse hparse (List.mem_append_left _ (List.mem_cons_of_mem _
        (List.mem_cons_of_mem _ List.mem_cons_self)))⟩
  · rintro ⟨huser, hfunction, hinput⟩
    rw [makeJsonCall_eq]
    apply parse_flat
    · exact List.append_ne_nil_of_left_ne_nil (List.cons_ne_nil _ _) _
    · have hnames : ∀ name ∈ ["user".toList, "function".toList, "input_data".toList,
          "forbid_ndp".toList, "is_storage".toList], isContents .plain name = true := by decide +kernel
      simp only [List.forall_mem_cons] at hnames
      obtain ⟨huserName, hfunctionName, hinputName, hforbidName, hstorageName, -⟩ := hnames
      refine .cons ⟨rfl, huserName, .string huser⟩ (.cons ⟨rfl, hfunctionName, .string hfunction⟩
        (.cons ⟨rfl, hinputName, .string hinput⟩ (.cons ⟨rfl, hforbidName, .bool forbidNdp⟩ ?_)))
      cases forceStorage with
      | false => exact .nil
      | true => exact .cons ⟨rfl, hstorageName, .bool true⟩ .nil

/-! ### The pool -/

/-- The texts that a function is called with: the arguments themselves, or the
lines of the file that its argument names.  `none` is a panic. -/
def inputData (args : List Chars) (file : Chars → Option Chars) (idx : Nat) :
    Option (List Chars) :=
  args.head?.bind fun first =>
    if idx = 0 ∧ first.head? ≠ some '@' then some args
    else args[idx]?.bind fun arg => (stripPrefix ['@'] arg).bind fun path =>
      (file (trim isWhitespace path)).map fun text =>
        ((lines text).map (trim isWhitespace)).filter (· ≠ [])

/-- The arguments name files, not texts, for this function. -/
def FromFile (args : List Chars) (idx : Nat) : Prop :=
  idx ≠ 0 ∨ ∃ path rest, args = ('@' :: path) :: rest

/-- No blank line of a file is used, and no blanks at the ends of a line. -/
theorem inputData_lines {args : List Chars} {file : Chars → Option Chars} {idx : Nat}
    {data : List Chars} (hdata : inputData args file idx = some data) (hfile : FromFile args idx)
    {line : Chars} (hline : line ∈ data) : line ≠ [] ∧ trim isWhitespace line = line := by
  obtain ⟨first, hfirst, hdata⟩ := Option.bind_eq_some_iff.mp hdata
  have hnamed : ¬ (idx = 0 ∧ first.head? ≠ some '@') := by
    rintro ⟨hzero, hhead⟩
    rcases hfile with hne | ⟨path, rest, rfl⟩
    · exact hne hzero
    · obtain rfl : '@' :: path = first := Option.some.inj hfirst
      exact hhead rfl
  rw [if_neg hnamed] at hdata
  obtain ⟨arg, -, hdata⟩ := Option.bind_eq_some_iff.mp hdata
  obtain ⟨path, -, hdata⟩ := Option.bind_eq_some_iff.mp hdata
  obtain ⟨text, -, rfl⟩ := Option.map_eq_some_iff.mp hdata
  obtain ⟨hmem, hne⟩ := List.mem_filter.mp hline
  obtain ⟨piece, -, rfl⟩ := List.mem_map.mp hmem
  refine ⟨of_decide_eq_true hne, ?_⟩
  have htrimmed : trim isWhitespace piece = trimEnd isWhitespace (piece.dropWhile isWhitespace) :=
    rfl
  rw [htrimmed, trim_trimEnd, trim_dropWhile, htrimmed]

/-- Without offloading and with it. -/
def requestPool (user function : Chars) (forceNdp : Bool) (data : List Chars) :
    List (Chars × Chars) :=
  data.map fun line =>
    (makeJsonCall user function line true forceNdp, makeJsonCall user function line false forceNdp)

/-- The body of a request. -/
def body (pool : List (Chars × Chars)) (task : Task) : Option Chars :=
  pool[task.which]?.map fun pair => if task.ndp then pair.2 else pair.1

/-- The options that say what is called. -/
structure CallOptions (n : Nat) where
  user : Chars
  functions : Fin n → Chars
  inputData : List Chars

variable {n : Nat}

def forceNdp (opts : Options n) (i : Fin n) : Bool :=
  decide (opts.offloadFracDen < (opts.functions i).offloadFracNum)

/-- The bodies that a function has posted, in order. -/
def posted (opts : Options n) (calls : CallOptions n) (data : Fin n → List Chars) (s : System n)
    (i : Fin n) : List (Option Chars) :=
  (s.fns i).tasks.map
    (body (requestPool calls.user (calls.functions i) (forceNdp opts i) (data i)))

/-- The platform may offload a call. -/
def permits (text : Chars) : Bool :=
  match parse text with
  | some (.object found) => found.any fun member =>
      decide (member.1 = "forbid_ndp".toList) && match member.2 with
        | .bool forbidden => !forbidden
        | _ => false
  | _ => false

theorem permits_makeJsonCall {user function inputData : Chars}
    (hvalid : isContents .plain user = true ∧ isContents .plain function = true ∧
      isContents .plain inputData = true) (forbidNdp forceStorage : Bool) :
    permits (makeJsonCall user function inputData forbidNdp forceStorage) = !forbidNdp := by
  rw [permits, (parse_makeJsonCall_iff ..).mpr hvalid]
  cases forceStorage <;> cases forbidNdp <;> rfl

/-! ### What a run posts -/

section Runs

variable {opts : Options n} {den : Nat} {s t : System n}

theorem fnStep_stocked {plan : Plan} {f f' : Fn} {act : FnAct}
    (hstep : FnStep opts.dryRun opts.offloadFracDen plan f act f')
    (hf : f.tasks ≠ [] → 0 < plan.poolSize) : f'.tasks ≠ [] → 0 < plan.poolSize := by
  cases hstep with
  | spawn _ hwhich => exact fun _ => Nat.zero_lt_of_lt hwhich
  | allocate _ _ => exact fun hne => absurd rfl hne
  | _ => exact hf

/-- Nothing is sent from an empty pool. -/
theorem run_stocked {es : List (Event n)} (hrun : Run (Step opts) start es s) (i : Fin n) :
    (s.fns i).tasks ≠ [] → 0 < (opts.functions i).poolSize := by
  apply Phases.run_fn (fun f => f.tasks ≠ [] → 0 < (opts.functions i).poolSize) _ _ _ hrun
  · exact fun hne => absurd rfl hne
  · exact fun _ _ _ hf hstep => fnStep_stocked hstep hf
  · intro f j task state hf _ hne
    exact hf (by simpa using hne)

theorem Cycling.choice_eq {plan : Plan} {f : Fn} (hf : Cycling den plan f) {k : Nat} {task : Task}
    (htask : f.tasks[k]? = some task) :
    task.ndp = decide (slot den k ≤ share den plan.offloadFracNum) ∧
      task.which = k % plan.poolSize := by
  obtain ⟨hlt, -⟩ := List.getElem?_eq_some_iff.mp htask
  have hchosen := congrArg (·[k]?) hf.chosen_eq
  simp only [List.getElem?_map, htask, List.getElem?_range hlt, Option.map_some,
    Option.some_inj] at hchosen
  exact ⟨congrArg Prod.fst hchosen, congrArg Prod.snd hchosen⟩

theorem body_requestPool {user function : Chars} {force : Bool} {data : List Chars} {task : Task}
    {line : Chars} (hline : data[task.which]? = some line) :
    body (requestPool user function force data) task =
      some (makeJsonCall user function line (!task.ndp) force) := by
  rw [body, requestPool, List.getElem?_map, hline]
  cases task.ndp <;> rfl

/-- The texts of the options can stand between quotes. -/
structure Valid (calls : CallOptions n) (data : Fin n → List Chars) : Prop where
  user : isContents .plain calls.user = true
  function : ∀ i, isContents .plain (calls.functions i) = true
  line : ∀ i, ∀ line ∈ data i, isContents .plain line = true

variable {calls : CallOptions n} {data : Fin n → List Chars}

/-- Request `k` of a function. -/
theorem posted_eq (calls : CallOptions n) (hden : opts.offloadFracDen.toInt = den) (hpos : 1 ≤ den)
    (hsmall : den < 2 ^ 31 - 1) (hpool : ∀ i, (opts.functions i).poolSize = (data i).length)
    {es : List (Event n)} (hrun : Run (Step opts) start es s) {i : Fin n} {k : Nat} {task : Task}
    (htask : (s.fns i).tasks[k]? = some task) :
    ∃ line, (data i)[k % (data i).length]? = some line ∧
      task.ndp = decide (slot den k ≤ share den (opts.functions i).offloadFracNum) ∧
      (posted opts calls data s i)[k]? =
        some (some (makeJsonCall calls.user (calls.functions i) line (!task.ndp)
          (forceNdp opts i))) := by
  obtain ⟨hndp, hwhich⟩ := Cycling.choice_eq (run_cycling hden hpos hsmall hrun i) htask
  have hne : (s.fns i).tasks ≠ [] := by
    intro hnil
    rw [hnil] at htask
    cases htask
  have hstocked := run_stocked hrun i hne
  rw [hpool] at hwhich hstocked
  have hlt := Nat.mod_lt k hstocked
  obtain ⟨line, hline⟩ : ∃ line, (data i)[k % (data i).length]? = some line :=
    ⟨_, List.getElem?_eq_getElem hlt⟩
  refine ⟨line, hline, hndp, ?_⟩
  rw [← hwhich] at hline
  rw [posted, List.getElem?_map, htask, Option.map_some, body_requestPool hline]

theorem countP_permits (hden : opts.offloadFracDen.toInt = den) (hpos : 1 ≤ den)
    (hsmall : den < 2 ^ 31 - 1) (hpool : ∀ i, (opts.functions i).poolSize = (data i).length)
    (hvalid : Valid calls data) {es : List (Event n)} (hrun : Run (Step opts) start es s)
    (i : Fin n) :
    (posted opts calls data s i).countP (fun text => text.any permits) = ndpTasks (s.fns i) := by
  rw [posted, List.countP_map, ndpTasks]
  apply List.countP_congr
  intro task hmem
  obtain ⟨k, htask⟩ := List.mem_iff_getElem?.mp hmem
  obtain ⟨line, hline, -, hposted⟩ := posted_eq calls hden hpos hsmall hpool hrun htask
  rw [posted, List.getElem?_map, htask, Option.map_some, Option.some_inj] at hposted
  rw [Function.comp, hposted, Option.any_some, permits_makeJsonCall ⟨hvalid.user,
    hvalid.function i, hvalid.line i line (List.mem_of_getElem? hline)⟩, Bool.not_not]

/-- In every run request `k` of a function is the body put together from the line of its
input whose turn it is, none of them blank, and from the flag of its slot.  A body says
just that to the platform exactly if its texts can stand between quotes, and if all can,
the shared counter is the number of bodies that allow offloading. -/
theorem requests_posted (hden : opts.offloadFracDen.toInt = den) (hpos : 1 ≤ den)
    (hsmall : den < 2 ^ 31 - 1) (file : Chars → Option Chars)
    (hdata : ∀ i : Fin n, inputData calls.inputData file i = some (data i))
    (hpool : ∀ i, (opts.functions i).poolSize = (data i).length) {es : List (Event n)}
    (hrun : Run (Step opts) start es s) :
    (∀ i k, k < (s.fns i).tasks.length → ∃ line text,
      (data i)[k % (data i).length]? = some line ∧
      (FromFile calls.inputData i → line ≠ [] ∧ trim isWhitespace line = line) ∧
      text = makeJsonCall calls.user (calls.functions i) line
        (!decide (slot den k ≤ share den (opts.functions i).offloadFracNum)) (forceNdp opts i) ∧
      (posted opts calls data s i)[k]? = some (some text) ∧
      (parse text = some (callDocument calls.user (calls.functions i) line
          (!decide (slot den k ≤ share den (opts.functions i).offloadFracNum)) (forceNdp opts i)) ↔
        isContents .plain calls.user = true ∧ isContents .plain (calls.functions i) = true ∧
          isContents .plain line = true)) ∧
      (Valid calls data → s.main = .reported →
        s.ndpRequests = Int64.ofNat
          (∑ i, (posted opts calls data s i).countP fun text => text.any permits)) := by
  refine ⟨fun i k hk => ?_, fun hvalid hreported => ?_⟩
  · obtain ⟨line, hline, hndp, hposted⟩ := posted_eq calls hden hpos hsmall hpool hrun
      (List.getElem?_eq_getElem hk)
    rw [hndp] at hposted
    exact ⟨line, _, hline, fun hfile =>
      inputData_lines (hdata i) hfile (List.mem_of_getElem? hline), rfl, hposted,
      parse_makeJsonCall_iff ..⟩
  · have hconserved := run_conserved hrun
    rw [hconserved.counters.ndp, hconserved.ndpCount_eq hreported, ndpCount]
    congr 1
    exact Finset.sum_congr rfl fun i _ =>
      (countP_permits hden hpos hsmall hpool hvalid hrun i).symm

end Runs

/-- Calls of one function with the lines of a file. -/
def fromFile : CallOptions 1 where
  user := "demo".toList
  functions := fun _ => "hello".toList
  inputData := ["@in.txt".toList]

def fileLines : Fin 1 → List Chars :=
  fun _ => ["a".toList, "b c".toList, "\\n".toList, "d".toList, "e".toList]

/-- A finished run over five lines; the second request takes the second of them. -/
theorem requests_posted_twoThirds :
    ∃ (es : List (Event 1)) (s : System 1), Run (Step twoThirds) start es s ∧ s.main = .reported ∧
      (posted twoThirds fromFile fileLines s 0)[1]?.join.bind parse =
        some (callDocument "demo".toList "hello".toList "b c".toList false false) ∧
      s.ndpRequests = Int64.ofNat (∑ i, (posted twoThirds fromFile fileLines s i).countP fun text =>
        text.any permits) := by
  obtain ⟨s, ⟨es, hrun⟩, hreported⟩ :=
    exists_reported twoThirds (by decide) twoThirds_runnable
  have hlength : (s.fns 0).tasks.length = 20 :=
    (reported_finished (Phases.run_ordered hrun) hreported 0).1
  let file : Chars → Option Chars := fun path =>
    if path = "in.txt".toList then some "a\n b c\r\n\n\\n\n\td\ne".toList else none
  have hdata : ∀ i : Fin 1, inputData fromFile.inputData file i = some (fileLines i) := by
    decide +kernel
  have hvalid : Valid fromFile fileLines := ⟨by decide +kernel, by decide +kernel, by decide +kernel⟩
  have hden : twoThirds.offloadFracDen.toInt = (3 : Nat) := rfl
  obtain ⟨hposted, hcounted⟩ := requests_posted hden (by decide) (by decide) file hdata
    (fun _ => rfl) hrun
  obtain ⟨line, text, hline, -, -, htext, hparse⟩ := hposted 0 1 (by omega)
  obtain rfl : "b c".toList = line := Option.some.inj hline
  refine ⟨es, s, hrun, hreported, ?_, hcounted hvalid hreported⟩
  rw [htext]
  exact hparse.mpr ⟨hvalid.user, hvalid.function 0, hvalid.line 0 _ (by simp [fileLines])⟩

end NdpOffload.Faasmspeed.Calls
