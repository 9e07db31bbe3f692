import XmlIndex.Index.Load
import XmlIndex.Session
import XmlIndex.Proofs.Guarded.Loading
import XmlIndex.Proofs.Index.Alignment
import XmlIndex.Proofs.Index.Histories
import XmlIndex.Proofs.Index.Pieces
import XmlIndex.Proofs.Index.Reencoding
import XmlIndex.Proofs.Lexer.Values
import XmlIndex.Proofs.Parse.DeclaredEncodings
import XmlIndex.Proofs.Parse.Decoding
import XmlIndex.Proofs.Parse.Encodings
import XmlIndex.Proofs.Parse.EndTags
import XmlIndex.Proofs.Parse.Extension
import XmlIndex.Proofs.Parse.Levels
import XmlIndex.Proofs.Parse.QualifiedNames
import XmlIndex.Proofs.Parse.ReservedTargets
import XmlIndex.Proofs.Parse.Truncation
import XmlIndex.Proofs.Parse.Undecodable
import XmlIndex.Proofs.Parse.Whitespace
import XmlIndex.Proofs.Scan.ReferenceForms
import XmlIndex.Proofs.Session.Histories
import XmlIndex.Proofs.Text.Columns
import XmlIndex.Proofs.Text.EncodingNames
import XmlIndex.Proofs.Text.UnicodeForms
import XmlIndex.Proofs.Token.Fields
