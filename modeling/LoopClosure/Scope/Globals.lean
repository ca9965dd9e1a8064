/-!
# Predefined globals

Tables of names with whether they may be written. Three of them are always in force; the others
belong to named environments.
-/

namespace LoopClosure.Globals

abbrev Table := List (String × Bool)

/-- Names that hosts of every kind provide. -/
def complementary : Table := [
  ("undefined", false), ("Infinity", false), ("console", false)]

/-- Names with a meaning of their own. -/
def reserved : Table := [
  ("arguments", false), ("NaN", false)]

/-- Names of the language. -/
def standard : Table := [
  ("Array", false), ("Boolean", false), ("Date", false), ("decodeURI", false),
  ("decodeURIComponent", false), ("encodeURI", false), ("encodeURIComponent", false),
  ("Error", false), ("eval", false), ("EvalError", false), ("Function", false),
  ("hasOwnProperty", false), ("isFinite", false), ("isNaN", false), ("JSON", false),
  ("Math", false), ("Number", false), ("Object", false), ("parseInt", false),
  ("parseFloat", false), ("RangeError", false), ("ReferenceError", false), ("RegExp", false),
  ("String", false), ("SyntaxError", false), ("TypeError", false), ("URIError", false)]

def es6 : Table := [
  ("ArrayBuffer", false), ("DataView", false), ("Float32Array", false), ("Float64Array", false),
  ("Int8Array", false), ("Int16Array", false), ("Int32Array", false), ("Map", false),
  ("Promise", false), ("Proxy", false), ("Reflect", false), ("Set", false), ("Symbol", false),
  ("Uint8Array", false), ("Uint8ClampedArray", false), ("Uint16Array", false),
  ("Uint32Array", false), ("WeakMap", false), ("WeakSet", false)]

def browser : Table := [
  ("addEventListener", false), ("atob", false), ("blur", false), ("btoa", false),
  ("cancelAnimationFrame", false), ("clearInterval", false), ("clearTimeout", false),
  ("close", false), ("closed", false), ("CustomEvent", false), ("document", false),
  ("Element", false), ("Event", false), ("FileReader", false), ("focus", false),
  ("FormData", false), ("frames", false), ("getComputedStyle", false), ("history", false),
  ("HTMLElement", false), ("Image", false), ("length", false), ("localStorage", false),
  ("location", false), ("matchMedia", false), ("MutationObserver", false), ("name", false),
  ("navigator", false), ("Node", false), ("NodeList", false), ("onbeforeunload", true),
  ("onblur", true), ("onerror", true), ("onfocus", true), ("onload", true), ("onresize", true),
  ("onunload", true), ("open", false), ("opener", false), ("parent", false),
  ("performance", false), ("print", false), ("removeEventListener", false),
  ("requestAnimationFrame", false), ("screen", false), ("scroll", false), ("scrollBy", false),
  ("scrollTo", false), ("self", false), ("sessionStorage", false), ("setInterval", false),
  ("setTimeout", false), ("status", false), ("top", false), ("URL", false), ("WebSocket", false),
  ("window", false), ("Worker", false), ("XMLHttpRequest", false)]

def node : Table := [
  ("__filename", false), ("__dirname", false), ("Buffer", false), ("clearImmediate", false),
  ("clearInterval", false), ("clearTimeout", false), ("console", false), ("exports", true),
  ("global", false), ("GLOBAL", false), ("module", false), ("process", false),
  ("require", false), ("setImmediate", false), ("setInterval", false), ("setTimeout", false)]

def devel : Table := [
  ("alert", false), ("confirm", false), ("console", false), ("Debug", false), ("opera", false),
  ("prompt", false)]

def worker : Table := [
  ("importScripts", true), ("postMessage", true), ("self", true)]

def mocha : Table := [
  ("after", false), ("afterEach", false), ("before", false), ("beforeEach", false),
  ("context", false), ("describe", false), ("it", false), ("mocha", false), ("setup", false),
  ("specify", false), ("suite", false), ("suiteSetup", false), ("suiteTeardown", false),
  ("teardown", false), ("test", false), ("xcontext", false), ("xdescribe", false),
  ("xit", false), ("xspecify", false)]

def jasmine : Table := [
  ("afterAll", false), ("afterEach", false), ("beforeAll", false), ("beforeEach", false),
  ("describe", false), ("expect", false), ("fail", false), ("fdescribe", false), ("fit", false),
  ("it", false), ("jasmine", false), ("pending", false), ("runs", false), ("spyOn", false),
  ("waits", false), ("waitsFor", false), ("xdescribe", false), ("xit", false)]

/-- The tables that are always in force. -/
def always : List Table := [complementary, reserved, standard]

/-- Environments by name, in order of name. -/
def environments : List (String × Table) :=
  [("browser", browser), ("devel", devel), ("es6", es6), ("jasmine", jasmine), ("mocha", mocha),
   ("node", node), ("worker", worker)]

def environment? (name : String) : Option Table := environments.lookup name

def environmentNames : List String := environments.map (·.1)

end LoopClosure.Globals
