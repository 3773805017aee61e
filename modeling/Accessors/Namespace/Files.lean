import Accessors.Namespace.Templates
import Accessors.Record.Asset

/-!
# Fonts and files

A font is a constant, a function of the size, and a check that it is there. A file is a constant and
a function that locates it.
-/

namespace Accessors.Namespace

open Record (BundledFile Font)
open Accessors.Symbol (Leaf)
open Text (quote)

def fontContents (font : Font) : Contents where
  leaves := [
    .constant (Identifier.ofName font.postscriptName) "FontResource"
      s!"FontResource(fontName: {quote font.postscriptName})" ["Font file: " ++ font.fileName],
    .function (Identifier.ofName font.postscriptName) [.labeled "size" "CGFloat"] "UIFont?"
      s!"UIFont(name: {quote font.postscriptName}, size: size)" []]
  children := []
  checks := [checkNotNil s!"UIFont(name: {quote font.postscriptName}, size: 42)"
    (s!"Font '{font.postscriptName}' could not be loaded, is '{font.fileName}' listed under "
      ++ "UIAppFonts in Info.plist?")]

def fonts (fonts : List Font) : Noted Contents :=
  assemble "fonts" "font" (fonts.map fun font => .plain font.postscriptName (fontContents font))

def fileLeaves (bundle : String) (file : BundledFile) : List Leaf :=
  let identifier := Identifier.ofName file.fileName
  let parts := FileName.split file.fileName
  [.constant identifier "FileResource"
      (s!"FileResource(bundle: {bundle}, name: {quote parts.1}, "
        ++ s!"pathExtension: {quote parts.2})") ["Path: " ++ file.path],
    .function identifier [] "URL?"
      s!"{bundle}.url(forResource: {quote parts.1}, withExtension: {quote parts.2})" []]

def files (options : Options) (files : List BundledFile) : Noted Contents :=
  assemble "files" "file" (files.map fun file =>
    .plain file.fileName (.ofLeaves (fileLeaves options.bundleExpression file)))

end Accessors.Namespace
