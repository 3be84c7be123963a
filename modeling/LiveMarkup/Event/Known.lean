/-
The standard event names. Any other name is accepted as well.
-/
namespace LiveMarkup

/-- the standard event names, in alphabetical order -/
def knownEvents : List String :=
  ["abort", "animationcancel", "animationend", "animationiteration", "animationstart", "auxclick", "beforeinput",
    "blur", "cancel", "canplay", "canplaythrough", "change", "click", "close", "compositionend",
    "compositionstart", "compositionupdate", "contextmenu", "copy", "cuechange", "cut", "dblclick", "drag",
    "dragend", "dragenter", "dragleave", "dragover", "dragstart", "drop", "durationchange", "emptied", "ended",
    "error", "focus", "focusin", "focusout", "formdata", "gotpointercapture", "input", "invalid", "keydown",
    "keypress", "keyup", "load", "loadeddata", "loadedmetadata", "loadstart", "lostpointercapture", "mousedown",
    "mouseenter", "mouseleave", "mousemove", "mouseout", "mouseover", "mouseup", "paste", "pause", "play",
    "playing", "pointercancel", "pointerdown", "pointerenter", "pointerleave", "pointermove", "pointerout",
    "pointerover", "pointerup", "progress", "ratechange", "reset", "resize", "scroll", "securitypolicyviolation",
    "seeked", "seeking", "select", "selectionchange", "selectstart", "stalled", "submit", "suspend", "timeupdate",
    "toggle", "touchcancel", "touchend", "touchmove", "touchstart", "transitioncancel", "transitionend",
    "transitionrun", "transitionstart", "volumechange", "waiting", "wheel"]

/-- whether an event name is a standard one; case matters -/
def isKnownEvent (name : String) : Bool := knownEvents.contains name

end LiveMarkup
