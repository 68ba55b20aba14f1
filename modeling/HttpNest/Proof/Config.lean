import HttpNest.Spec.Config

/-!
# What `main` demands of its configuration

Most members may be missing, or be null. The section `log` may not: without it `main` uses a null
pointer. Neither may the port of a service: its default is a text, which is not converted to a
number. With a right configuration the servers are started (`starts_iff`).
-/

namespace HttpNest

open JsonValue

variable {ρ α β : Type} {reals : JsonReals ρ} {v : JsonValue ρ}

/-- A member of an object, null if it is missing. -/
def member (ms : List (Bytes × JsonValue ρ)) (key : String) : JsonValue ρ :=
  (ms.lookup (ascii key)).getD .null

/-- The text of a member; the empty one for a container. -/
def memberText (reals : JsonReals ρ) (ms : List (Bytes × JsonValue ρ)) (key : String) : Bytes :=
  ((member ms key).asString reals).toOption.getD []

/-- The section `log`: texts, and a file that can be opened. -/
def IsLog (reals : JsonReals ρ) (opens : Bytes → Bool) (v : JsonValue ρ) : Prop :=
  ∃ ls, v = .object ls ∧ (∀ key ∈ ["level", "path", "name", "rotate"], (member ls key).IsText) ∧
    opens (memberText reals ls "path" ++ memberText reals ls "name") = true

/-- A service: texts, and a port that is there. -/
def IsService (reals : JsonReals ρ) (v : JsonValue ρ) : Prop :=
  ∃ fs, v = .object fs ∧ (∀ key ∈ ["addr", "protocol", "transport"], (member fs key).IsText) ∧
    ∃ port, fs.lookup (ascii "port") = some port ∧ port.IsInt reals

/-- A configuration that `main` starts with. -/
def IsConfig (reals : JsonReals ρ) (opens : Bytes → Bool) (v : JsonValue ρ) : Prop :=
  ∃ ms, v = .object ms ∧ (member ms "name").IsText ∧
    (∀ key ∈ ["cpu_start", "cpus", "threads"], (member ms key).IsInt reals) ∧
    IsLog reals opens (member ms "log") ∧
    ∃ xs, member ms "services" = .array xs ∧ ∀ x ∈ xs, IsService reals x

/-! ## Conversions -/

theorem bind_eq_ok {x : Except String α} {f : α → Except String β} {b : β} :
    x >>= f = .ok b ↔ ∃ a, x = .ok a ∧ f a = .ok b := by
  cases x with
  | error what => exact ⟨fun h => (by cases h), fun ⟨_, h, _⟩ => (by cases h)⟩
  | ok a => exact ⟨fun h => ⟨a, rfl, h⟩, fun ⟨_, ha, h⟩ => (by cases ha; exact h)⟩

theorem exists_asString (reals : JsonReals ρ) : (∃ s, v.asString reals = .ok s) ↔ v.IsText := by
  rw [← asString_isOk reals]
  cases v.asString reals <;> simp [Except.isOk, Except.toBool]

theorem exists_asInt : (∃ z, v.asInt reals = .ok z) ↔ v.IsInt reals := by
  rw [← asInt_isOk]
  cases v.asInt reals <;> simp [Except.isOk, Except.toBool]

/-- Null converts, so it does not matter that it is passed over. -/
theorem unlessNull_text (v : JsonValue ρ) :
    unlessNull v [] (fun v => v.asString reals) = v.asString reals := by
  cases v <;> rfl

theorem exists_unlessNull_int (before : ℤ) :
    (∃ z, unlessNull v before (fun v => v.asInt reals) = .ok z) ↔ v.IsInt reals := by
  rw [← exists_asInt]
  cases v <;> simp [unlessNull, isNull, asInt]

theorem exists_unlessNull_map (reals : JsonReals ρ) {β : Type} (before : β) (f : Bytes → β) :
    (∃ b, unlessNull v before (fun v => do return f (← v.asString reals)) = .ok b) ↔
      v.IsText := by
  rw [← exists_asString reals]
  cases v <;> simp [unlessNull, isNull, asString, bind, Except.bind, pure, Except.pure]

/-! ## The sections -/

theorem index_object (ms : List (Bytes × JsonValue ρ)) (key : String) :
    (JsonValue.object ms).index (ascii key) = .ok (member ms key) := rfl

theorem resolve_object (ms : List (Bytes × JsonValue ρ)) (key : String) :
    (JsonValue.object ms).resolve (ascii key) = .ok (member ms key) := rfl

namespace Config

theorem parseLogInfo_object {ls : List (Bytes × JsonValue ρ)} {info : LogInfo} :
    parseLogInfo reals (.object ls) = .ok info ↔ ∃ level path name rotateType,
      unlessNull (member ls "level") .kTrace (fun v => do
        return levelOf (← v.asString reals) .kTrace) = .ok level ∧
      (member ls "path").asString reals = .ok path ∧
      (member ls "name").asString reals = .ok name ∧
      unlessNull (member ls "rotate") .kRotateNone (fun v => do
        return rotateOf (← v.asString reals) .kRotateNone) = .ok rotateType ∧
      info = ⟨level, path, name, rotateType⟩ := by
  simp only [parseLogInfo, index_object, unlessNull_text, bind_eq_ok, pure, Except.pure,
    Except.ok.injEq, exists_eq_left']
  refine ⟨?_, ?_⟩
  · rintro ⟨level, hlevel, path, hpath, name, hname, rotateType, hrotate, rfl⟩
    exact ⟨level, path, name, rotateType, hlevel, hpath, hname, hrotate, rfl⟩
  · rintro ⟨level, path, name, rotateType, hlevel, hpath, hname, hrotate, rfl⟩
    exact ⟨level, hlevel, path, hpath, name, hname, rotateType, hrotate, rfl⟩

theorem memberText_of_ok {ls : List (Bytes × JsonValue ρ)} {key : String} {s : Bytes}
    (h : (member ls key).asString reals = .ok s) : memberText reals ls key = s := by
  rw [memberText, h]
  rfl

/-- The section is read, and its file can be opened. -/
theorem exists_logInfo {opens : Bytes → Bool} : (∃ info : LogInfo,
    unlessNull v none (fun v => do return some (← parseLogInfo reals v)) = .ok (some info) ∧
      opens (info.path ++ info.name) = true) ↔ IsLog reals opens v := by
  constructor
  · rintro ⟨info, hinfo, hopens⟩
    cases v with
    | null => cases hinfo
    | object ls =>
      obtain ⟨i, hi, heq⟩ := bind_eq_ok.1 hinfo
      cases heq
      obtain ⟨level, path, name, rotateType, hlevel, hpath, hname, hrotate, rfl⟩ :=
        parseLogInfo_object.1 hi
      refine ⟨ls, rfl, ?_, by rwa [memberText_of_ok hpath, memberText_of_ok hname]⟩
      simp only [List.forall_mem_cons, List.not_mem_nil, false_implies, implies_true, and_true]
      exact ⟨(exists_unlessNull_map reals _ _).1 ⟨_, hlevel⟩, (exists_asString reals).1 ⟨_, hpath⟩,
        (exists_asString reals).1 ⟨_, hname⟩, (exists_unlessNull_map reals _ _).1 ⟨_, hrotate⟩⟩
    | _ => cases hinfo
  · rintro ⟨ls, rfl, htexts, hopens⟩
    simp only [List.forall_mem_cons, List.not_mem_nil, false_implies, implies_true,
      and_true] at htexts
    obtain ⟨hlevel, hpath, hname, hrotate⟩ := htexts
    obtain ⟨level, hlevel⟩ := (exists_unlessNull_map reals .kTrace
      (levelOf · .kTrace)).2 hlevel
    obtain ⟨path, hpath⟩ := (exists_asString reals).2 hpath
    obtain ⟨name, hname⟩ := (exists_asString reals).2 hname
    obtain ⟨rotateType, hrotate⟩ := (exists_unlessNull_map reals .kRotateNone
      (rotateOf · .kRotateNone)).2 hrotate
    rw [memberText_of_ok hpath, memberText_of_ok hname] at hopens
    exact ⟨⟨level, path, name, rotateType⟩, bind_eq_ok.2 ⟨_, parseLogInfo_object.2
      ⟨level, path, name, rotateType, hlevel, hpath, hname, hrotate, rfl⟩, rfl⟩, hopens⟩

theorem exists_get_text (reals : JsonReals ρ) (fs : List (Bytes × JsonValue ρ)) (key : String)
    (s : Bytes) :
    (∃ text, (JsonValue.object fs).get (ascii key) (.string s) >>= asString reals = .ok text) ↔
      (member fs key).IsText := by
  rw [← exists_asString reals, member]
  show (∃ text, ((fs.lookup (ascii key)).getD (.string s)).asString reals = .ok text) ↔ _
  cases fs.lookup (ascii key) <;> simp [asString]

theorem exists_get_int (fs : List (Bytes × JsonValue ρ)) (key : String) (s : Bytes) :
    (∃ z, (JsonValue.object fs).get (ascii key) (.string s) >>= asInt reals = .ok z) ↔
      ∃ v, fs.lookup (ascii key) = some v ∧ v.IsInt reals := by
  show (∃ z, ((fs.lookup (ascii key)).getD (.string s)).asInt reals = .ok z) ↔ _
  cases fs.lookup (ascii key) with
  | none => simp [asInt]
  | some v => simp [exists_asInt]

theorem parseService_eq (v : JsonValue ρ) : parseService reals v = (do
    let addr ← v.get (ascii "addr") (.string (ascii "0.0.0.0")) >>= asString reals
    let port ← v.get (ascii "port") (.string (ascii "0")) >>= asInt reals
    let protocol ← v.get (ascii "protocol") (.string (ascii "rtmp")) >>= asString reals
    let transport ← v.get (ascii "transport") (.string (ascii "tcp")) >>= asString reals
    return ⟨addr, BitVec.ofInt 16 port, protocol, transport⟩) := by
  simp only [parseService, bind_assoc]

/-- A service is read exactly if it is one. -/
theorem exists_parseService : (∃ info, parseService reals v = .ok info) ↔ IsService reals v := by
  constructor
  · rintro ⟨info, h⟩
    rw [parseService_eq] at h
    obtain ⟨addr, haddr, h⟩ := bind_eq_ok.1 h
    obtain ⟨port, hport, h⟩ := bind_eq_ok.1 h
    obtain ⟨protocol, hprotocol, h⟩ := bind_eq_ok.1 h
    obtain ⟨transport, htransport, -⟩ := bind_eq_ok.1 h
    cases v with
    | object fs =>
      refine ⟨fs, rfl, ?_, (exists_get_int fs "port" _).1 ⟨_, hport⟩⟩
      simp only [List.forall_mem_cons, List.not_mem_nil, false_implies, implies_true, and_true]
      exact ⟨(exists_get_text reals fs "addr" _).1 ⟨_, haddr⟩,
        (exists_get_text reals fs "protocol" _).1 ⟨_, hprotocol⟩,
        (exists_get_text reals fs "transport" _).1 ⟨_, htransport⟩⟩
    | _ => cases hport
  · rintro ⟨fs, rfl, htexts, hport⟩
    simp only [List.forall_mem_cons, List.not_mem_nil, false_implies, implies_true,
      and_true] at htexts
    obtain ⟨haddr, hprotocol, htransport⟩ := htexts
    obtain ⟨addr, haddr⟩ := (exists_get_text reals fs "addr" _).2 haddr
    obtain ⟨port, hport⟩ := (exists_get_int fs "port" _).2 hport
    obtain ⟨protocol, hprotocol⟩ := (exists_get_text reals fs "protocol" _).2 hprotocol
    obtain ⟨transport, htransport⟩ :=
      (exists_get_text reals fs "transport" _).2 htransport
    rw [parseService_eq]
    exact ⟨_, bind_eq_ok.2 ⟨_, haddr, bind_eq_ok.2 ⟨_, hport, bind_eq_ok.2 ⟨_, hprotocol,
      bind_eq_ok.2 ⟨_, htransport, rfl⟩⟩⟩⟩⟩

theorem exists_mapM {xs : List (JsonValue ρ)} {f : JsonValue ρ → Except String β} :
    (∃ ys, xs.mapM f = .ok ys) ↔ ∀ x ∈ xs, ∃ y, f x = .ok y := by
  induction xs with
  | nil => simp [pure, Except.pure]
  | cons x xs ih =>
    rw [List.forall_mem_cons, ← ih, List.mapM_cons]
    simp only [bind_eq_ok]
    constructor
    · rintro ⟨ys, y, hy, zs, hzs, -⟩
      exact ⟨⟨y, hy⟩, zs, hzs⟩
    · rintro ⟨⟨y, hy⟩, zs, hzs⟩
      exact ⟨_, y, hy, zs, hzs, rfl⟩

theorem exists_services : (∃ services, parseServiceInfo reals v = .ok (some services)) ↔
    ∃ xs, v = .array xs ∧ ∀ x ∈ xs, IsService reals x := by
  constructor
  · rintro ⟨services, h⟩
    cases v with
    | array xs =>
      obtain ⟨ys, hys, -⟩ := bind_eq_ok.1 h
      exact ⟨xs, rfl, fun x hx => exists_parseService.1 (exists_mapM.1 ⟨ys, hys⟩ x hx)⟩
    | _ => cases h
  · rintro ⟨xs, rfl, hxs⟩
    obtain ⟨ys, hys⟩ := exists_mapM.2 fun x hx => exists_parseService.2 (hxs x hx)
    exact ⟨ys, bind_eq_ok.2 ⟨ys, hys, rfl⟩⟩

theorem loadConfig_object {ms : List (Bytes × JsonValue ρ)} {config : Config} :
    loadConfig reals (some (.object ms)) = .ok (some config) ↔
      ∃ name cpuStart cpus threadNums logInfo services,
        (member ms "name").asString reals = .ok name ∧
        unlessNull (member ms "cpu_start") 0 (fun v => v.asInt reals) = .ok cpuStart ∧
        unlessNull (member ms "cpus") 1 (fun v => v.asInt reals) = .ok cpus ∧
        unlessNull (member ms "threads") 1 (fun v => v.asInt reals) = .ok threadNums ∧
        unlessNull (member ms "log") none (fun v => do
          return some (← parseLogInfo reals v)) = .ok logInfo ∧
        parseServiceInfo reals (member ms "services") = .ok (some services) ∧
        config = ⟨name, cpuStart, threadNums, cpus, logInfo, services⟩ := by
  simp only [loadConfig, resolve_object, unlessNull_text, bind_eq_ok, Except.ok.injEq,
    exists_eq_left']
  constructor
  · rintro ⟨name, hname, cpuStart, hstart, cpus, hcpus, threadNums, hthreads, logInfo, hlog, r,
      hservices, h⟩
    cases r with
    | none => cases h
    | some services =>
      cases h
      exact ⟨name, cpuStart, cpus, threadNums, logInfo, services, hname, hstart, hcpus, hthreads,
        hlog, hservices, rfl⟩
  · rintro ⟨name, cpuStart, cpus, threadNums, logInfo, services, hname, hstart, hcpus, hthreads,
      hlog, hservices, rfl⟩
    exact ⟨name, hname, cpuStart, hstart, cpus, hcpus, threadNums, hthreads, logInfo, hlog, _,
      hservices, rfl⟩

/-- A configuration that is no object has no section `services`, or throws. -/
theorem exists_object {parsed : Option (JsonValue ρ)} {config : Config}
    (h : loadConfig reals parsed = .ok (some config)) : ∃ ms, parsed = some (.object ms) := by
  cases parsed with
  | none => cases h
  | some root =>
    cases root with
    | object ms => exact ⟨ms, rfl⟩
    | _ => cases h

/-- **What `LoadConfig` accepts** with a section `log` and a log file that can be opened. -/
theorem exists_config {opens : Bytes → Bool} {parsed : Option (JsonValue ρ)} :
    (∃ config info, loadConfig reals parsed = .ok (some config) ∧ config.logInfo = some info ∧
      opens (info.path ++ info.name) = true) ↔ ∃ root ∈ parsed, IsConfig reals opens root := by
  constructor
  · rintro ⟨config, info, hload, hinfo, hopens⟩
    obtain ⟨ms, rfl⟩ := exists_object hload
    obtain ⟨name, cpuStart, cpus, threadNums, logInfo, services, hname, hstart, hcpus, hthreads,
      hlog, hservices, rfl⟩ := loadConfig_object.1 hload
    obtain rfl : logInfo = some info := hinfo
    refine ⟨_, rfl, ms, rfl, (exists_asString reals).1 ⟨_, hname⟩, ?_,
      exists_logInfo.1 ⟨info, hlog, hopens⟩, exists_services.1 ⟨services, hservices⟩⟩
    simp only [List.forall_mem_cons, List.not_mem_nil, false_implies, implies_true, and_true]
    exact ⟨(exists_unlessNull_int 0).1 ⟨_, hstart⟩, (exists_unlessNull_int 1).1 ⟨_, hcpus⟩,
      (exists_unlessNull_int 1).1 ⟨_, hthreads⟩⟩
  · rintro ⟨root, hroot, ms, rfl, hname, hints, hlog, hservices⟩
    obtain rfl : parsed = some _ := hroot
    simp only [List.forall_mem_cons, List.not_mem_nil, false_implies, implies_true,
      and_true] at hints
    obtain ⟨name, hname⟩ := (exists_asString reals).2 hname
    obtain ⟨cpuStart, hstart⟩ := (exists_unlessNull_int 0).2 hints.1
    obtain ⟨cpus, hcpus⟩ := (exists_unlessNull_int 1).2 hints.2.1
    obtain ⟨threadNums, hthreads⟩ := (exists_unlessNull_int 1).2 hints.2.2
    obtain ⟨info, hlog, hopens⟩ := exists_logInfo.2 hlog
    obtain ⟨services, hservices⟩ := exists_services.2 hservices
    exact ⟨_, info, loadConfig_object.2 ⟨name, cpuStart, cpus, threadNums, some info, services,
      hname, hstart, hcpus, hthreads, hlog, hservices, rfl⟩, rfl, hopens⟩

end Config

/-- **When `main` starts the servers**: exactly if the text is a right configuration and the log
file can be opened. -/
theorem starts_iff (reals : JsonReals ρ) (opens : Bytes → Bool) (parsed : Option (JsonValue ρ)) :
    (∃ servers, main reals opens parsed = .started servers) ↔
      ∃ root ∈ parsed, IsConfig reals opens root := by
  rw [← Config.exists_config]
  unfold main
  constructor
  · rintro ⟨servers, h⟩
    cases hload : Config.loadConfig reals parsed with
    | error what => rw [hload] at h; cases h
    | ok r =>
      rw [hload] at h
      cases r with
      | none => cases h
      | some config =>
        cases hinfo : config.logInfo with
        | none => simp only [hinfo] at h; cases h
        | some info =>
          simp only [hinfo] at h
          split_ifs at h with hopens
          exact ⟨config, info, rfl, hinfo, hopens⟩
  · rintro ⟨config, info, hload, hinfo, hopens⟩
    rw [hload]
    simp only [hinfo, if_pos hopens]
    exact ⟨_, rfl⟩

end HttpNest
