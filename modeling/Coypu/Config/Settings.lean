import Coypu.Config.Parsing
import Mathlib.Data.Finset.Image

/-!
# What `main` takes from its configuration

The accessors of `CoypuConfig`, and what `main` reads with them: the loggers, where the stores are,
which feeds are followed and with which symbols, and where clients connect. Of a document this is
what the first occurrences of the keys say (`Settings.ofFile_eq_some_iff`), with three things to
know. A mapping or a sequence where a string is expected is the empty string. One flag is read into
the variable of the one before, so a feed whose flag is missing is followed if the one before is.
The cache is restored from the default path, whichever path it is written to.

Whether `spdlog` makes a logger, and whether the processors can be set, is up to the host. Ports and
processors are strings here.
-/

set_option autoImplicit false

namespace Coypu

/-! ## The accessors -/

namespace CoypuConfig

variable (heap : ℕ → CoypuConfig) (config : ℕ)

/-- `GetValue` of a string, and `GetKeyValue`. If there is nothing, `out` stays as it is. -/
def getValue (key : List UInt8) : Option (List UInt8) :=
  ((heap config).getConfig key).map fun c ↦ (heap c).value

/-- `GetValue` with a default. -/
def getValueOr (key defaultValue : List UInt8) : List UInt8 :=
  (getValue heap config key).getD defaultValue

/-- `GetValue` of a flag, with what `out` is before. -/
def getFlag (key : List UInt8) (out : Bool) : Bool :=
  match (heap config).getConfig key with
  | none => out
  | some c => (heap c).value == ascii "true" || (heap c).value == ascii "TRUE"

/-- `GetKeys`. An `unordered_map` has them in some order. -/
def getKeys : List (List UInt8) := (heap config).maps.map Prod.fst

/-- `GetSeqValues` of a name. -/
def getSeqValues (name : List UInt8) : List (List UInt8) :=
  match (heap config).getConfig name with
  | none => []
  | some c => (heap c).seqs.map fun item ↦ (heap item).value

end CoypuConfig

/-! ## `main` -/

/-- A logger: its name, its level and its file. The console has no file. -/
abbrev LoggerSetting := List UInt8 × List UInt8 × List UInt8

/-- What is not up to `main`: whether there can be a logger with a name and a file, and whether the
processors in a string can be set. -/
structure Host where
  makesLogger : List UInt8 → List UInt8 → Bool
  setCPUs : List UInt8 → Bool

/-- The loggers come in no order, and the feeds that are followed with their symbols. -/
@[ext]
structure Settings where
  loggers : Finset LoggerSetting
  wsLogger : List UInt8
  cpus : List UInt8
  publishPath : List UInt8
  cachePath : List UInt8
  restorePath : List UInt8
  interface : List UInt8
  http2Port : List UInt8
  gdax : Option (List (List UInt8) × List (List UInt8))
  kraken : Option (List (List UInt8) × List UInt8)
  serverTest : Bool
  adminPort : List UInt8
  protoPort : List UInt8
deriving DecidableEq

namespace Settings

open CoypuConfig

def coypuPublishPath : List UInt8 := ascii "stream/publish/data"

def coypuCachePath : List UInt8 := ascii "stream/cache/data"

def coypuDefaultAdminPort : List UInt8 := ascii "9999"

def coypuDefaultProtoPort : List UInt8 := ascii "8088"

def coypuDefaultGrpcPort : List UInt8 := ascii "8089"

def consoleName : List UInt8 := ascii "console"

/-- The other logger that `main` makes itself. -/
def stderrName : List UInt8 := ascii "stderr"

/-- A round of the loop over the loggers. There is nothing if it ends the process. -/
def readLogger (host : Host) (heap : ℕ → CoypuConfig) (loggers : ℕ) (logger : List UInt8) :
    Option LoggerSetting :=
  ((heap loggers).getConfig logger).bind fun cfgLog ↦
    let level := getValueOr heap cfgLog (ascii "level") []
    if logger = consoleName then if level = [] then none else some (logger, level, [])
    else
      let file := getValueOr heap cfgLog (ascii "file") []
      if level = [] ∨ file = [] ∨ host.makesLogger logger file = false then none
      else some (logger, level, file)

def readLoggers (host : Host) (heap : ℕ → CoypuConfig) (loggers : ℕ) :
    Option (Finset LoggerSetting) :=
  let loggerNames := getKeys heap loggers
  if ∀ logger ∈ loggerNames, (readLogger host heap loggers logger).isSome = true then
    some (loggerNames.filterMap (readLogger host heap loggers)).toFinset
  else none

/-- The logger of the web sockets, which must have been made, and their processors. -/
def readWebsocket (host : Host) (heap : ℕ → CoypuConfig) (config loggers : ℕ) :
    Option (List UInt8 × List UInt8) :=
  let cfg := ((heap config).getConfig (ascii "coypu")).bind fun cfg ↦
    (heap cfg).getConfig (ascii "websocket")
  let logger := cfg.elim [] fun cfg ↦ getValueOr heap cfg (ascii "logger") []
  let cpuStr := cfg.elim [] fun cfg ↦ getValueOr heap cfg (ascii "cpu") []
  if logger = [] then none
  else if logger ≠ consoleName ∧ logger ≠ stderrName ∧
      (getKeys heap loggers).contains logger = false then none
  else if cpuStr ≠ [] ∧ host.setCPUs cpuStr = false then none
  else some (logger, cpuStr)

/-- What is read behind the loggers. -/
def readServices (heap : ℕ → CoypuConfig) (config : ℕ) (loggers : Finset LoggerSetting)
    (websocket : List UInt8 × List UInt8) : Option Settings :=
  let publishPath := getValueOr heap config (ascii "coypu-publish-path") coypuPublishPath
  let cachePath := getValueOr heap config (ascii "coypu-cache-path") coypuCachePath
  let interface := getValueOr heap config (ascii "interface") []
  if interface = [] then none
  else
    let http2Port := getValueOr heap config (ascii "grpc-port") coypuDefaultGrpcPort
    let doCB := getFlag heap config (ascii "do-gdax") false
    let gdax := if doCB then some (getSeqValues heap config (ascii "gdax-symbols"),
      getSeqValues heap config (ascii "gdax-channels")) else none
    let doCB := getFlag heap config (ascii "do-kraken") doCB
    let krakenHost := getValueOr heap config (ascii "kraken-host") []
    let kraken := if doCB then some (getSeqValues heap config (ascii "kraken-symbols"), krakenHost)
      else none
    if doCB ∧ krakenHost = [] then none
    else
      let doCB := getFlag heap config (ascii "do-server-test") doCB
      let adminPort := getValueOr heap config (ascii "admin-port") coypuDefaultAdminPort
      let protoPort := getValueOr heap config (ascii "proto-port") coypuDefaultProtoPort
      some ⟨loggers, websocket.1, websocket.2, publishPath, cachePath, coypuCachePath, interface,
        http2Port, gdax, kraken, doCB, adminPort, protoPort⟩

/-- What `main` reads, in its order. There is nothing if an assertion fails, or if it exits. -/
def read (host : Host) (heap : ℕ → CoypuConfig) (config : ℕ) : Option Settings :=
  ((heap config).getConfig (ascii "loggers")).bind fun loggers ↦
    (readLoggers host heap loggers).bind fun made ↦
      (readWebsocket host heap config loggers).bind (readServices heap config made)

/-- From the file on. There is nothing, either, if the file cannot be parsed or has no document. -/
def ofFile (host : Host) (input : Option (List (Option YamlEvent))) : Option Settings :=
  (parse input).bind fun r ↦ r.bind fun s ↦
    ((s.heap rootConfig).getConfig rootKey).bind (read host s.heap)

end Settings

/-! ## What a document says -/

namespace Yaml

variable (t : Yaml) (key : List UInt8)

/-- What stands behind the first occurrence of a key. -/
def get : Yaml → List UInt8 → Option Yaml
  | map ps, key => ps.lookup key
  | _, _ => none

def text : Yaml → List UInt8
  | scalar value => value
  | _ => []

def items : Yaml → List Yaml
  | seq ts => ts
  | _ => []

def setting (defaultValue : List UInt8) : List UInt8 :=
  ((t.get key).map text).getD defaultValue

def list : List (List UInt8) := ((t.get key).map items).getD [] |>.map text

/-- What stands behind a key that is there, or else nothing. -/
def part : Yaml := (t.get key).getD (scalar [])

/-- The settings of a logger. -/
def logger (name : List UInt8) : LoggerSetting :=
  (name, t.setting (ascii "level") [],
    if name = Settings.consoleName then [] else t.setting (ascii "file") [])

/-- The key is there, and says so. -/
def Says : Prop := ∃ v, t.get key = some v ∧ (v.text = ascii "true" ∨ v.text = ascii "TRUE")

end Yaml

/-- A logger is made: it has a level, and a file if it is not the console. -/
def LoggerSetting.Made (host : Host) (logger : LoggerSetting) : Prop :=
  logger.2.1 ≠ [] ∧ (logger.1 ≠ Settings.consoleName →
    logger.2.2 ≠ [] ∧ host.makesLogger logger.1 logger.2.2 = true)

open Yaml in
/-- The loggers are what the document says. -/
structure Settings.MeansLoggers (host : Host) (t : Yaml) (r : Settings) : Prop where
  has_loggers : t.get (ascii "loggers") ≠ none
  mem_loggers : ∀ logger, logger ∈ r.loggers ↔
    ∃ v, (t.part (ascii "loggers")).get logger.1 = some v ∧ logger = v.logger logger.1
  made : ∀ logger ∈ r.loggers, LoggerSetting.Made host logger
  wsLogger_eq : r.wsLogger
    = ((t.part (ascii "coypu")).part (ascii "websocket")).setting (ascii "logger") []
  wsLogger_ne : r.wsLogger ≠ []
  wsLogger_made : r.wsLogger = consoleName ∨ r.wsLogger = stderrName ∨
    ∃ logger ∈ r.loggers, logger.1 = r.wsLogger
  cpus_eq : r.cpus
    = ((t.part (ascii "coypu")).part (ascii "websocket")).setting (ascii "cpu") []
  cpus_set : r.cpus ≠ [] → host.setCPUs r.cpus = true

open Yaml in
/-- The other settings are. -/
structure Settings.MeansServices (t : Yaml) (r : Settings) : Prop where
  publishPath_eq : r.publishPath = t.setting (ascii "coypu-publish-path") coypuPublishPath
  cachePath_eq : r.cachePath = t.setting (ascii "coypu-cache-path") coypuCachePath
  restorePath_eq : r.restorePath = coypuCachePath
  interface_eq : r.interface = t.setting (ascii "interface") []
  interface_ne : r.interface ≠ []
  http2Port_eq : r.http2Port = t.setting (ascii "grpc-port") coypuDefaultGrpcPort
  gdax_iff : r.gdax.isSome = true ↔ t.Says (ascii "do-gdax")
  gdax_eq : ∀ lists ∈ r.gdax,
    lists = (t.list (ascii "gdax-symbols"), t.list (ascii "gdax-channels"))
  kraken_iff : r.kraken.isSome = true ↔ t.Says (ascii "do-kraken") ∨
    t.get (ascii "do-kraken") = none ∧ r.gdax.isSome = true
  kraken_eq : ∀ lists ∈ r.kraken, lists = (t.list (ascii "kraken-symbols"),
    t.setting (ascii "kraken-host") []) ∧ lists.2 ≠ []
  serverTest_iff : r.serverTest = true ↔ t.Says (ascii "do-server-test") ∨
    t.get (ascii "do-server-test") = none ∧ r.kraken.isSome = true
  adminPort_eq : r.adminPort = t.setting (ascii "admin-port") coypuDefaultAdminPort
  protoPort_eq : r.protoPort = t.setting (ascii "proto-port") coypuDefaultProtoPort

/-- The settings are what the document says. -/
structure Settings.Means (host : Host) (t : Yaml) (r : Settings) : Prop where
  loggers : r.MeansLoggers host t
  services : r.MeansServices t

/-! ## The objects are plain -/

/-- An object has nothing that belongs to the other types. -/
structure CoypuConfig.Plain (config : CoypuConfig) : Prop where
  value_eq : config.type ≠ .scalar → config.value = []
  seqs_eq : config.type ≠ .sequence → config.seqs = []
  maps_eq : config.type ≠ .map → config.maps = []

namespace CoypuConfig

theorem plain_ofType (type : CoypuConfigType) : (ofType type).Plain :=
  ⟨fun _ ↦ rfl, fun _ ↦ rfl, fun _ ↦ rfl⟩

theorem plain_ofValue (value : List UInt8) : (ofValue value).Plain :=
  ⟨fun h ↦ absurd rfl h, fun _ ↦ rfl, fun _ ↦ rfl⟩

theorem Plain.add {config config' newItem : CoypuConfig} {item : ℕ} (h : config.Plain)
    (hadd : config.add newItem item = some config') : config'.Plain := by
  obtain ⟨type, seqs, maps, value, lastKey, isValue⟩ := config
  obtain ⟨hvalue, hseqs, hmaps⟩ := h
  unfold CoypuConfig.add at hadd
  cases type with
  | scalar => exact absurd hadd (Option.some_ne_none config').symm
  | sequence =>
    obtain rfl := Option.some.inj hadd
    exact ⟨hvalue, fun hne ↦ absurd rfl hne, hmaps⟩
  | map =>
    simp only at hadd
    split_ifs at hadd
    · obtain rfl := Option.some.inj hadd
      exact ⟨hvalue, hseqs, fun hne ↦ absurd rfl hne⟩
    · obtain rfl := Option.some.inj hadd
      exact ⟨hvalue, hseqs, hmaps⟩

end CoypuConfig

namespace ConfigParser

open CoypuConfig

variable {s s' : ConfigParser}

theorem plain_addNew (h : ∀ a, (s.heap a).Plain) {newItem : CoypuConfig} (hnew : newItem.Plain)
    (hs' : s.addNew newItem = some s') : ∀ a, (s'.heap a).Plain := by
  obtain ⟨config, hadd, rfl⟩ := Option.map_eq_some_iff.mp hs'
  intro a
  simp only [Function.update_apply]
  split_ifs
  · exact (h s.curConfig).add hadd
  · exact hnew
  · exact h a

theorem plain_push (h : ∀ a, (s.heap a).Plain) {type : CoypuConfigType}
    (hs' : s.push type = some s') : ∀ a, (s'.heap a).Plain := by
  obtain ⟨s₁, hs₁, rfl⟩ := Option.map_eq_some_iff.mp hs'
  have hheap := plain_addNew h (plain_ofType type) hs₁
  exact hheap

theorem plain_pop (h : ∀ a, (s.heap a).Plain) (hs' : s.pop = some s') :
    ∀ a, (s'.heap a).Plain := by
  unfold pop at hs'
  split at hs'
  · exact absurd hs' (Option.some_ne_none s').symm
  · obtain rfl := Option.some.inj hs'
    exact h

/-- An event. -/
theorem plain_step (h : ∀ a, (s.heap a).Plain) {e : YamlEvent} (hs' : s.step e = some s') :
    ∀ a, (s'.heap a).Plain := by
  match e, hs' with
  | .sequenceStart, hs' => exact plain_push h hs'
  | .sequenceEnd, hs' => exact plain_pop h hs'
  | .mappingStart, hs' => exact plain_push h hs'
  | .mappingEnd, hs' => exact plain_pop h hs'
  | .alias, hs' => exact absurd hs' (Option.some_ne_none s').symm
  | .scalar value, hs' => exact plain_addNew h (plain_ofValue _) hs'
  | .streamEnd, hs' | .noEvent, hs' | .streamStart, hs' | .documentStart, hs' | .documentEnd, hs' =>
    obtain rfl := Option.some.inj hs'
    exact h

/-- The loop. The induction is on the events. -/
theorem plain_loop (events : List (Option YamlEvent)) (h : ∀ a, (s.heap a).Plain)
    (hs' : s.loop events = some (some s')) : ∀ a, (s'.heap a).Plain := by
  induction events generalizing s with
  | nil => exact absurd hs' (Option.some_ne_none _).symm
  | cons e events ih =>
    cases e with
    | none => exact absurd (Option.some.inj hs') (Option.some_ne_none s').symm
    | some e =>
      by_cases hend : e = .streamEnd
      · rw [hend] at hs'
        rw [← Option.some.inj (Option.some.inj hs')]
        exact h
      · rw [loop_cons hend] at hs'
        obtain ⟨s₁, hs₁, hrest⟩ := Option.bind_eq_some_iff.mp hs'
        exact ih (plain_step h hs₁) hrest

end ConfigParser

namespace CoypuConfig

/-- Whatever the events are, the objects are plain. -/
theorem plain_parse {input : Option (List (Option YamlEvent))} {s : ConfigParser}
    (h : parse input = some (some s)) : ∀ a, (s.heap a).Plain := by
  cases input with
  | none => exact absurd (Option.some.inj h) (Option.some_ne_none s).symm
  | some events =>
    have hbind : start.bind (fun s ↦ s.loop events) = some (some s) := h
    obtain ⟨s₀, hs₀, hloop⟩ := Option.bind_eq_some_iff.mp hbind
    refine ConfigParser.plain_loop events ?_ hloop
    exact ConfigParser.plain_addNew (fun _ ↦ plain_ofType .map) (plain_ofValue rootKey) hs₀

/-! ## The accessors on a document -/

section Accessors

variable {heap : ℕ → CoypuConfig} {R : ℕ → Prop} {a : ℕ} {t : Yaml}
  (h : Represents heap R a t) (hplain : ∀ a, (heap a).Plain)

include h hplain

theorem Represents.value_eq : (heap a).value = t.text := by
  cases h with
  | scalar _ _ hvalue => exact hvalue
  | seq _ htype _ _ =>
    refine (hplain a).value_eq ?_
    rw [htype]
    exact CoypuConfigType.noConfusion
  | map _ htype _ _ =>
    refine (hplain a).value_eq ?_
    rw [htype]
    exact CoypuConfigType.noConfusion

/-- A key is found if the document has it, with what the document has for it. -/
theorem Represents.getConfig_cases (key : List UInt8) :
    (heap a).getConfig key = none ∧ t.get key = none ∨
      ∃ b v, (heap a).getConfig key = some b ∧ t.get key = some v ∧ Represents heap R b v := by
  have hnone : (heap a).type ≠ .map → (heap a).getConfig key = none := by
    intro hne
    rw [getConfig, (hplain a).maps_eq hne]
    rfl
  cases h with
  | scalar _ htype _ =>
    refine Or.inl ⟨hnone ?_, rfl⟩
    rw [htype]
    exact CoypuConfigType.noConfusion
  | seq _ htype _ _ =>
    refine Or.inl ⟨hnone ?_, rfl⟩
    rw [htype]
    exact CoypuConfigType.noConfusion
  | @map _ ps _ _ hkeys hvalues =>
    have hkey := hkeys key
    cases hb : (heap a).getConfig key with
    | none =>
      rw [hb, Option.isSome_none, eq_comm, Option.isSome_eq_false_iff, Option.isNone_iff_eq_none]
        at hkey
      exact Or.inl ⟨rfl, hkey⟩
    | some b =>
      rw [hb, Option.isSome_some, eq_comm] at hkey
      obtain ⟨v, hv⟩ := Option.isSome_iff_exists.mp hkey
      exact Or.inr ⟨b, v, rfl, hv, hvalues key b v hb hv⟩

theorem Represents.map_value_seqs :
    ((heap a).seqs.map fun item ↦ (heap item).value) = t.items.map Yaml.text := by
  have hnil : (heap a).type ≠ .sequence →
      ((heap a).seqs.map fun item ↦ (heap item).value) = [] := by
    intro hne
    rw [(hplain a).seqs_eq hne]
    rfl
  cases h with
  | scalar _ htype _ =>
    refine hnil ?_
    rw [htype]
    exact CoypuConfigType.noConfusion
  | map _ htype _ _ =>
    refine hnil ?_
    rw [htype]
    exact CoypuConfigType.noConfusion
  | @seq _ ts _ _ hlen hitems =>
    have hfst : ((heap a).seqs.zip ts).map Prod.fst = (heap a).seqs := List.map_fst_zip hlen.le
    have hsnd : ((heap a).seqs.zip ts).map Prod.snd = ts := List.map_snd_zip hlen.ge
    calc
      ((heap a).seqs.map fun item ↦ (heap item).value)
          = ((heap a).seqs.zip ts).map fun p ↦ (heap p.1).value := by
            conv_lhs => rw [← hfst]
            rw [List.map_map]
            rfl
      _ = ((heap a).seqs.zip ts).map fun p ↦ p.2.text := by
            refine List.map_congr_left fun p hp ↦ ?_
            exact (hitems p.1 p.2 hp).value_eq hplain
      _ = ts.map Yaml.text := by
            conv_rhs => rw [← hsnd]
            rw [List.map_map]
            rfl

theorem Represents.getValueOr_eq (key defaultValue : List UInt8) :
    getValueOr heap a key defaultValue = t.setting key defaultValue := by
  unfold getValueOr getValue Yaml.setting
  rcases h.getConfig_cases hplain key with ⟨hb, hv⟩ | ⟨b, v, hb, hv, hrep⟩
  · rw [hb, hv]
    rfl
  · rw [hb, hv, Option.map_some, Option.map_some, hrep.value_eq hplain]

theorem Represents.getFlag_iff (key : List UInt8) (out : Bool) :
    getFlag heap a key out = true ↔ t.Says key ∨ t.get key = none ∧ out = true := by
  unfold getFlag Yaml.Says
  rcases h.getConfig_cases hplain key with ⟨hb, hv⟩ | ⟨b, v, hb, hv, hrep⟩
  · rw [hb, hv]
    simp
  · rw [hb, hv]
    simp [hrep.value_eq hplain]

theorem Represents.mem_getKeys (key : List UInt8) :
    key ∈ getKeys heap a ↔ ∃ v, t.get key = some v := by
  have hmem : key ∈ getKeys heap a ↔ ((heap a).getConfig key).isSome = true := by
    rw [getKeys, getConfig, List.lookup_isSome_iff, List.mem_map]
    constructor
    · rintro ⟨p, hp, rfl⟩
      exact ⟨p, hp, beq_self_eq_true _⟩
    · rintro ⟨p, hp, heq⟩
      exact ⟨p, hp, (beq_iff_eq.mp heq).symm⟩
  rw [hmem]
  rcases h.getConfig_cases hplain key with ⟨hb, hv⟩ | ⟨b, v, hb, hv, -⟩
  · rw [hb, hv]
    simp
  · rw [hb, hv]
    simp

theorem Represents.getSeqValues_eq (name : List UInt8) :
    getSeqValues heap a name = t.list name := by
  unfold getSeqValues Yaml.list
  rcases h.getConfig_cases hplain name with ⟨hb, hv⟩ | ⟨b, v, hb, hv, hrep⟩
  · rw [hb, hv]
    rfl
  · rw [hb, hv]
    exact hrep.map_value_seqs hplain

end Accessors

end CoypuConfig

namespace Settings

open CoypuConfig

variable {heap : ℕ → CoypuConfig} {R : ℕ → Prop} {a : ℕ} {t : Yaml} {r : Settings}

theorem eq_ite_iff {α : Type*} {o : Option α} {flag : Bool} {x : α} :
    o = (if flag = true then some x else none) ↔
      (o.isSome = true ↔ flag = true) ∧ ∀ y ∈ o, y = x := by
  cases o with
  | none =>
    cases flag with
    | false => simp
    | true => simp
  | some y =>
    cases flag with
    | false => simp
    | true => simp

theorem readServices_eq_some_iff (h : Represents heap R a t) (hplain : ∀ a, (heap a).Plain)
    (loggers : Finset LoggerSetting) (websocket : List UInt8 × List UInt8) :
    readServices heap a loggers websocket = some r ↔
      (r.loggers = loggers ∧ r.wsLogger = websocket.1 ∧ r.cpus = websocket.2) ∧
        r.MeansServices t := by
  obtain ⟨doGdax, hdoGdax⟩ : ∃ b, b = getFlag heap a (ascii "do-gdax") false := ⟨_, rfl⟩
  obtain ⟨doKraken, hdoKraken⟩ : ∃ b, b = getFlag heap a (ascii "do-kraken") doGdax := ⟨_, rfl⟩
  obtain ⟨doTest, hdoTest⟩ : ∃ b, b = getFlag heap a (ascii "do-server-test") doKraken := ⟨_, rfl⟩
  have hgdax := h.getFlag_iff hplain (ascii "do-gdax") false
  have hkraken := h.getFlag_iff hplain (ascii "do-kraken") doGdax
  have htest := h.getFlag_iff hplain (ascii "do-server-test") doKraken
  rw [← hdoGdax, or_iff_left fun hfalse ↦ Bool.false_ne_true hfalse.2] at hgdax
  rw [← hdoKraken] at hkraken
  rw [← hdoTest] at htest
  -- the flags of the settings are those that are read
  have hflag (hm : r.MeansServices t) : r.kraken.isSome = true ↔ doKraken = true := by
    rw [hm.kraken_iff, hkraken, hm.gdax_iff, hgdax]
  unfold readServices
  simp only [h.getValueOr_eq hplain, h.getSeqValues_eq hplain, ← hdoGdax, ← hdoKraken, ← hdoTest]
  by_cases hinterface : t.setting (ascii "interface") [] = []
  · rw [if_pos hinterface]
    exact iff_of_false (Option.some_ne_none r).symm fun hm ↦
      hm.2.interface_ne (hm.2.interface_eq.trans hinterface)
  rw [if_neg hinterface]
  by_cases hhost : doKraken = true ∧ t.setting (ascii "kraken-host") [] = []
  · rw [if_pos hhost]
    refine iff_of_false (Option.some_ne_none r).symm fun ⟨_, hm⟩ ↦ ?_
    obtain ⟨lists, hlists⟩ := Option.isSome_iff_exists.mp ((hflag hm).mpr hhost.1)
    obtain ⟨heq, hne⟩ := hm.kraken_eq lists hlists
    rw [heq] at hne
    exact hne hhost.2
  rw [if_neg hhost, Option.some_inj]
  constructor
  · rintro rfl
    have hfeed := eq_ite_iff.mp (Eq.refl (if doGdax = true then some
      (t.list (ascii "gdax-symbols"), t.list (ascii "gdax-channels")) else none))
    have hfeed' := eq_ite_iff.mp (Eq.refl (if doKraken = true then some
      (t.list (ascii "kraken-symbols"), t.setting (ascii "kraken-host") []) else none))
    refine ⟨⟨rfl, rfl, rfl⟩, rfl, rfl, rfl, rfl, hinterface, rfl, hfeed.1.trans hgdax, hfeed.2,
      ?_, ?_, ?_, rfl, rfl⟩
    · exact hfeed'.1.trans (hkraken.trans (or_congr_right (and_congr_right fun _ ↦ hfeed.1.symm)))
    · intro lists hlists
      have hdo := hfeed'.1.mp (Option.isSome_iff_exists.mpr ⟨lists, hlists⟩)
      refine ⟨hfeed'.2 lists hlists, ?_⟩
      rw [hfeed'.2 lists hlists]
      exact fun hempty ↦ hhost ⟨hdo, hempty⟩
    · exact htest.trans (or_congr_right (and_congr_right fun _ ↦ hfeed'.1.symm))
  · rintro ⟨⟨hloggers, hwsLogger, hcpus⟩, hm⟩
    have hserver : doTest = true ↔ r.serverTest = true := by
      rw [htest, hm.serverTest_iff, hflag hm]
    refine Settings.ext hloggers.symm hwsLogger.symm hcpus.symm hm.publishPath_eq.symm
      hm.cachePath_eq.symm hm.restorePath_eq.symm hm.interface_eq.symm hm.http2Port_eq.symm ?_ ?_
      (Bool.eq_iff_iff.mpr hserver) hm.adminPort_eq.symm hm.protoPort_eq.symm
    · exact (eq_ite_iff.mpr ⟨hm.gdax_iff.trans hgdax.symm, hm.gdax_eq⟩).symm
    · exact (eq_ite_iff.mpr ⟨hflag hm, fun lists hlists ↦ (hm.kraken_eq lists hlists).1⟩).symm

/-! ### The loggers -/

section Loggers

variable {host : Host} {loggers : Finset LoggerSetting} {logger : LoggerSetting}

/-- A round makes the logger that the document has under the name, if it can be made. -/
theorem readLogger_eq_some_iff (h : Represents heap R a t) (hplain : ∀ a, (heap a).Plain)
    (name : List UInt8) :
    readLogger host heap a name = some logger ↔
      ∃ v, t.get name = some v ∧ logger = v.logger name ∧ logger.Made host := by
  unfold readLogger
  rcases h.getConfig_cases hplain name with ⟨hb, hv⟩ | ⟨b, v, hb, hv, hrep⟩
  · rw [hb, hv]
    simp
  rw [hb, hv, Option.bind_some]
  simp only [hrep.getValueOr_eq hplain, Option.some.injEq, exists_eq_left', Yaml.logger,
    LoggerSetting.Made]
  by_cases hname : name = consoleName
  · simp only [if_pos hname]
    by_cases hlevel : v.setting (ascii "level") [] = []
    · rw [if_pos hlevel]
      refine iff_of_false (Option.some_ne_none _).symm ?_
      rintro ⟨rfl, hne, -⟩
      exact hne hlevel
    · rw [if_neg hlevel, Option.some_inj]
      constructor
      · rintro rfl
        exact ⟨rfl, hlevel, fun hne ↦ absurd hname hne⟩
      · exact fun hlogger ↦ hlogger.1.symm
  · simp only [if_neg hname]
    split_ifs with hrefused
    · refine iff_of_false not_false ?_
      rintro ⟨rfl, hlevel, hmade⟩
      obtain ⟨hfile, hhost⟩ := hmade hname
      rcases hrefused with hempty | hempty | hhost'
      · exact hlevel hempty
      · exact hfile hempty
      · exact absurd (hhost.symm.trans hhost') Bool.noConfusion
    · obtain ⟨hlevel, hfile, hhost⟩ : v.setting (ascii "level") [] ≠ [] ∧
          v.setting (ascii "file") [] ≠ [] ∧
          host.makesLogger name (v.setting (ascii "file") []) = true := by
        simpa [not_or] using hrefused
      rw [Option.some_inj]
      constructor
      · rintro rfl
        exact ⟨rfl, hlevel, fun _ ↦ ⟨hfile, hhost⟩⟩
      · exact fun hlogger ↦ hlogger.1.symm

theorem readLoggers_eq_some_iff (h : Represents heap R a t) (hplain : ∀ a, (heap a).Plain) :
    readLoggers host heap a = some loggers ↔
      (∀ logger, logger ∈ loggers ↔
        ∃ v, t.get logger.1 = some v ∧ logger = v.logger logger.1) ∧
      ∀ logger ∈ loggers, logger.Made host := by
  have hread (name : List UInt8) (p : LoggerSetting) :
      readLogger host heap a name = some p ↔
        ∃ v, t.get name = some v ∧ p = v.logger name ∧ p.Made host :=
    readLogger_eq_some_iff h hplain name
  have hmem (p : LoggerSetting) :
      p ∈ ((getKeys heap a).filterMap (readLogger host heap a)).toFinset ↔
        ∃ v, t.get p.1 = some v ∧ p = v.logger p.1 ∧ p.Made host := by
    rw [List.mem_toFinset, List.mem_filterMap]
    constructor
    · rintro ⟨name, -, hp⟩
      obtain ⟨v, hv, rfl, hmade⟩ := (hread name p).mp hp
      exact ⟨v, hv, rfl, hmade⟩
    · rintro ⟨v, hv, hp⟩
      exact ⟨p.1, (h.mem_getKeys hplain p.1).mpr ⟨v, hv⟩, (hread p.1 p).mpr ⟨v, hv, hp⟩⟩
  unfold readLoggers
  simp only
  split_ifs with hall
  · rw [Option.some_inj]
    constructor
    · rintro rfl
      refine ⟨fun p ↦ ?_, fun p hp ↦ ?_⟩
      · rw [hmem]
        refine exists_congr fun v ↦ and_congr_right fun hv ↦ and_iff_left_of_imp fun hp ↦ ?_
        -- a logger that is in the document was made
        obtain ⟨q, hq⟩ := Option.isSome_iff_exists.mp
          (hall p.1 ((h.mem_getKeys hplain p.1).mpr ⟨v, hv⟩))
        obtain ⟨v', hv', rfl, hmade⟩ := (hread p.1 q).mp hq
        obtain rfl := Option.some.inj (hv.symm.trans hv')
        rwa [hp]
      · obtain ⟨v, -, -, hmade⟩ := (hmem p).mp hp
        exact hmade
    · rintro ⟨hiff, hmade⟩
      refine Finset.ext fun p ↦ ?_
      rw [hmem, hiff]
      refine exists_congr fun v ↦ and_congr_right fun hv ↦ and_iff_left_of_imp fun hp ↦ ?_
      exact hmade p ((hiff p).mpr ⟨v, hv, hp⟩)
  · refine iff_of_false not_false fun ⟨hiff, hmade⟩ ↦ hall fun name hname ↦ ?_
    obtain ⟨v, hv⟩ := (h.mem_getKeys hplain name).mp hname
    have hlogger : v.logger name ∈ loggers := (hiff _).mpr ⟨v, hv, rfl⟩
    exact Option.isSome_iff_exists.mpr
      ⟨_, (hread name _).mpr ⟨v, hv, rfl, hmade _ hlogger⟩⟩

theorem getValueOr_part (h : Represents heap R a t) (hplain : ∀ a, (heap a).Plain)
    (key key' name : List UInt8) :
    (((heap a).getConfig key).bind fun cfg ↦ (heap cfg).getConfig key').elim []
        (fun cfg ↦ getValueOr heap cfg name [])
      = ((t.part key).part key').setting name [] := by
  unfold Yaml.part
  rcases h.getConfig_cases hplain key with ⟨hb, hv⟩ | ⟨b, v, hb, hv, hrep⟩
  · rw [hb, hv]
    rfl
  rw [hb, hv, Option.bind_some, Option.getD_some]
  rcases hrep.getConfig_cases hplain key' with ⟨hb', hv'⟩ | ⟨b', v', hb', hv', hrep'⟩
  · rw [hb', hv']
    rfl
  · rw [hb', hv', Option.elim_some, Option.getD_some, hrep'.getValueOr_eq hplain]

theorem readWebsocket_eq_some_iff (h : Represents heap R a t) (hplain : ∀ a, (heap a).Plain)
    {l : ℕ} {ts : Yaml} (hloggers : Represents heap R l ts) {websocket : List UInt8 × List UInt8} :
    readWebsocket host heap a l = some websocket ↔
      websocket = (((t.part (ascii "coypu")).part (ascii "websocket")).setting (ascii "logger") [],
        ((t.part (ascii "coypu")).part (ascii "websocket")).setting (ascii "cpu") []) ∧
      websocket.1 ≠ [] ∧
      (websocket.1 = consoleName ∨ websocket.1 = stderrName ∨ ∃ v, ts.get websocket.1 = some v) ∧
      (websocket.2 ≠ [] → host.setCPUs websocket.2 = true) := by
  unfold readWebsocket
  simp only [getValueOr_part h hplain, ← Bool.not_eq_true, List.contains_iff_mem]
  generalize ((t.part (ascii "coypu")).part (ascii "websocket")).setting (ascii "logger") []
    = logger
  generalize ((t.part (ascii "coypu")).part (ascii "websocket")).setting (ascii "cpu") [] = cpuStr
  have hkeys := hloggers.mem_getKeys hplain logger
  split_ifs with hempty hmissing hcpus
  · refine iff_of_false not_false ?_
    rintro ⟨rfl, hne, -⟩
    exact hne hempty
  · refine iff_of_false not_false ?_
    rintro ⟨rfl, -, hmade, -⟩
    rw [← hkeys] at hmade
    rcases hmade with hc | hc | hc
    · exact hmissing.1 hc
    · exact hmissing.2.1 hc
    · exact hmissing.2.2 hc
  · refine iff_of_false not_false ?_
    rintro ⟨rfl, -, -, hset⟩
    exact hcpus.2 (hset hcpus.1)
  · rw [Option.some_inj]
    constructor
    · rintro rfl
      refine ⟨rfl, hempty, ?_, fun hne ↦ ?_⟩
      · rw [← hkeys]
        by_contra hnot
        rw [not_or, not_or] at hnot
        exact hmissing hnot
      · by_contra hnot
        exact hcpus ⟨hne, hnot⟩
    · exact fun hwebsocket ↦ hwebsocket.1.symm

end Loggers

/-- What is read from a configuration of the document is what the document says. -/
theorem read_eq_some_iff {host : Host} (h : Represents heap R a t) (hplain : ∀ a, (heap a).Plain) :
    read host heap a = some r ↔ r.Means host t := by
  unfold read
  rcases h.getConfig_cases hplain (ascii "loggers") with ⟨hb, hv⟩ | ⟨b, v, hb, hv, hrep⟩
  · rw [hb, Option.bind_none]
    exact iff_of_false (Option.some_ne_none _).symm fun hm ↦ hm.loggers.has_loggers hv
  have hpart : t.part (ascii "loggers") = v := by rw [Yaml.part, hv, Option.getD_some]
  rw [hb, Option.bind_some]
  -- who has a logger is in the document
  have hmade (hmem : ∀ logger, logger ∈ r.loggers ↔
      ∃ w, v.get logger.1 = some w ∧ logger = w.logger logger.1) (name : List UInt8) :
      (∃ logger ∈ r.loggers, logger.1 = name) ↔ ∃ w, v.get name = some w := by
    constructor
    · rintro ⟨logger, hlogger, rfl⟩
      obtain ⟨w, hw, -⟩ := (hmem logger).mp hlogger
      exact ⟨w, hw⟩
    · rintro ⟨w, hw⟩
      exact ⟨w.logger name, (hmem _).mpr ⟨w, hw, rfl⟩, rfl⟩
  simp only [Option.bind_eq_some_iff, readLoggers_eq_some_iff hrep hplain,
    readWebsocket_eq_some_iff h hplain hrep, readServices_eq_some_iff h hplain]
  constructor
  · rintro ⟨_, ⟨hmem, hall⟩, _, ⟨rfl, hne, hws, hcpus⟩, ⟨rfl, hlogger, hcpu⟩, hservices⟩
    rw [← hlogger] at hne hws
    rw [← hcpu] at hcpus
    refine ⟨⟨?_, ?_, hall, hlogger, hne, ?_, hcpu, hcpus⟩, hservices⟩
    · rw [hv]
      exact Option.some_ne_none v
    · rwa [hpart]
    · rwa [hmade hmem]
  · rintro ⟨⟨-, hmem, hall, hlogger, hne, hws, hcpu, hcpus⟩, hservices⟩
    rw [hpart] at hmem
    rw [hmade hmem] at hws
    exact ⟨r.loggers, ⟨hmem, hall⟩, (r.wsLogger, r.cpus),
      ⟨Prod.ext hlogger hcpu, hne, hws, hcpus⟩, ⟨rfl, rfl, rfl⟩, hservices⟩

/-- **The settings of a document** are what the document says, with its scalars cut at their first
zero. -/
theorem ofFile_eq_some_iff (host : Host) (t : Yaml) (r : Settings) :
    ofFile host (some t.stream) = some r ↔ r.Means host t.cut := by
  obtain ⟨s, a, hparse, -, hroot, hrep⟩ := exists_parsed t
  have hread : ofFile host (some t.stream) = read host s.heap a := by
    rw [ofFile, hparse, Option.bind_some, Option.bind_some, hroot, Option.bind_some]
  rw [hread]
  exact read_eq_some_iff hrep (plain_parse hparse)

/-- Kraken is followed though its flag is missing. -/
example : (ofFile ⟨fun _ _ ↦ true, fun _ ↦ true⟩ (some (Yaml.map [
    (ascii "loggers", .map [(consoleName, .map [(ascii "level", .scalar (ascii "debug"))])]),
    (ascii "coypu", .map [(ascii "websocket", .map [(ascii "logger", .scalar consoleName)])]),
    (ascii "interface", .scalar (ascii "lo")),
    (ascii "kraken-host", .scalar (ascii "host")),
    (ascii "do-gdax", .scalar (ascii "true"))]).stream)).bind Settings.kraken
      = some ([], ascii "host") := by
  decide +kernel

end Settings

end Coypu
